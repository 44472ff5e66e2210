/- Module: Epilog/Common/Unification
   source: src/src/common/term_env.cpp (unify, unify_helper)
   digest: When unification solves two terms, most generally and for trees of any size. -/

import Epilog.Common.HeapTrees

set_option autoImplicit false

namespace Epilog.Common.Unification

open Epilog.Common.Term Epilog.Common.TermWalk Epilog.Common.Unify Epilog.Common.Forwarding
  Epilog.Common.HeapTrees Epilog.Lib.Fuel Epilog.Lib.RationalTree Relation

section Joined

variable {R : Regions} {mem mem' : ℕ → Cell} {size : ℕ} {done done' : Cell → Cell → Prop}
  {stack stack' : List (Cell × Cell)} {s t c d : Cell}

/-- Terms are joined by the pairs that unification is through with or has on its stack, and by
having one value. -/
def Joined (R : Regions) (mem : ℕ → Cell) (done : Cell → Cell → Prop)
    (stack : List (Cell × Cell)) : Cell → Cell → Prop :=
  EqvGen fun s t => done s t ∨ (s, t) ∈ stack ∨ SameValue R mem s t

theorem Joined.refl (s : Cell) : Joined R mem done stack s s := EqvGen.refl s

theorem Joined.symm (joined : Joined R mem done stack s t) : Joined R mem done stack t s :=
  EqvGen.symm s t joined

theorem Joined.trans (joined : Joined R mem done stack s t) (later : Joined R mem done stack t c) :
    Joined R mem done stack s c :=
  EqvGen.trans s t c joined later

theorem Joined.finished (pair : done s t) : Joined R mem done stack s t := .rel s t (.inl pair)

theorem Joined.listed (pair : (s, t) ∈ stack) : Joined R mem done stack s t :=
  .rel s t (.inr (.inl pair))

theorem Joined.same (same : SameValue R mem s t) : Joined R mem done stack s t :=
  .rel s t (.inr (.inr same))

theorem Joined.lift (joined : Joined R mem done stack s t)
    (finished : ∀ s t, done s t → Joined R mem' done' stack' s t)
    (listed : ∀ s t, (s, t) ∈ stack → Joined R mem' done' stack' s t)
    (same : ∀ s t, SameValue R mem s t → Joined R mem' done' stack' s t) :
    Joined R mem' done' stack' s t := by
  induction joined with
  | rel s t pair =>
    rcases pair with pair | pair | pair
    · exact finished s t pair
    · exact listed s t pair
    · exact same s t pair
  | refl s => exact .refl s
  | symm s t _ ih => exact ih.symm
  | trans s t c _ _ ih ih' => exact ih.trans ih'

theorem Joined.pop (pairs : List (Cell × Cell))
    (joined : Joined R mem done ((s, t) :: stack) c d) :
    Joined R mem (fun s' t' => done s' t' ∨ s' = s ∧ t' = t) (pairs ++ stack) c d := by
  refine joined.lift (fun _ _ pair => .finished (.inl pair)) (fun c d listed => ?_) fun _ _ => .same
  rcases List.mem_cons.1 listed with here | listed
  · exact .finished (.inr (Prod.mk.inj here))
  · exact .listed (List.mem_append_right _ listed)

theorem Joined.step (joined : Joined R mem done stack s t) (step : Step R mem mem')
    (wf : WellFormed R mem size) : Joined R mem' done stack s t :=
  joined.lift (fun _ _ => .finished) (fun _ _ => .listed) fun _ _ pair =>
    .same (step.sameValue wf pair)

/-- Two functors are the same and have joined arguments. -/
structure SameArgs (mem : ℕ → Cell) (J : Cell → Cell → Prop) (k l : ℕ) : Prop where
  functor : mem k = mem l
  args : ∀ i < (mem k).arity, J (mem (k + i + 1)) (mem (l + i + 1))

variable {k l m : ℕ}

theorem SameArgs.refl (k : ℕ) : SameArgs mem (Joined R mem' done stack) k k :=
  ⟨rfl, fun _ _ => .refl _⟩

theorem SameArgs.symm (same : SameArgs mem (Joined R mem' done stack) k l) :
    SameArgs mem (Joined R mem' done stack) l k :=
  ⟨same.functor.symm, fun i small => (same.args i (by rwa [same.functor])).symm⟩

theorem SameArgs.trans (same : SameArgs mem (Joined R mem' done stack) k l)
    (later : SameArgs mem (Joined R mem' done stack) l m) :
    SameArgs mem (Joined R mem' done stack) k m :=
  ⟨same.functor.trans later.functor, fun i small =>
    (same.args i small).trans (later.args i (by rwa [← same.functor]))⟩

theorem SameArgs.imp {J J' : Cell → Cell → Prop} (same : SameArgs mem J k l)
    (weaker : ∀ s t, J s t → J' s t) : SameArgs mem J' k l :=
  ⟨same.functor, fun i small => weaker _ _ (same.args i small)⟩

theorem SameArgs.step (same : SameArgs mem (Joined R mem done stack) k l) (step : Step R mem mem')
    (wf : WellFormed R mem size) (functor : k ∈ R.functors) (functor' : l ∈ R.functors) :
    SameArgs mem' (Joined R mem' done stack) k l := by
  have kept := step.functor wf k functor
  have kept' := step.functor wf l functor'
  refine ⟨by rw [kept, kept', same.functor], fun i small => ?_⟩
  rw [kept] at small
  have small' : i < (mem l).arity := by rwa [← same.functor]
  have cell : Joined R mem' done stack (mem (k + i + 1)) (mem' (k + i + 1)) :=
    .same (step.cell wf ((wf.functors k functor).2.2 i small))
  have cell' : Joined R mem' done stack (mem (l + i + 1)) (mem' (l + i + 1)) :=
    .same (step.cell wf ((wf.functors l functor').2.2 i small'))
  exact (cell.symm.trans ((same.args i small).step step wf)).trans cell'

theorem look_inl {x : ℕ} (is : look mem d = .inl x) : d.tag.isRef = true ∧ d.index = x := by
  unfold look at is
  split_ifs at is with isRef
  exact ⟨isRef, Sum.inl.inj is⟩

theorem alike_refl {J : Cell → Cell → Prop} (refl : ∀ c, J c c) (v : ℕ ⊕ (Label × List Cell)) :
    Alike J v v := by
  rcases v with x | ⟨l, below⟩
  · exact .var x
  · exact .node l (List.forall₂_same.2 fun c _ => refl c)

theorem forall₂_square {P Q S : Cell → Cell → Prop} {a a' b b' : List Cell}
    (left : List.Forall₂ P a a') (middle : List.Forall₂ Q a b) (right : List.Forall₂ P b b')
    (each : ∀ x x' y y', P x x' → Q x y → P y y' → S x' y') : List.Forall₂ S a' b' := by
  induction middle generalizing a' b' with
  | nil =>
    cases left
    cases right
    exact .nil
  | cons related _ ih =>
    cases left with
    | cons first left =>
      cases right with
      | cons last right => exact .cons (each _ _ _ _ first related last) (ih left right)

theorem alike_step (step : Step R mem mem') (wf : WellFormed R mem size) (isTerm : IsTerm R mem s)
    (isTerm' : IsTerm R mem t)
    (alike : Alike (Joined R mem done stack) (view mem s) (view mem t)) :
    Alike (Joined R mem' done stack) (view mem' s) (view mem' t) := by
  obtain ⟨d, derefs, isValue⟩ := isTerm.derefs wf
  obtain ⟨e, derefs', isValue'⟩ := isTerm'.derefs wf
  have after := step.value_after wf isTerm
  have after' := step.value_after wf isTerm'
  rw [value_eq derefs] at after
  rw [value_eq derefs'] at after'
  rw [view_eq derefs, view_eq derefs'] at alike
  unfold view
  rw [after, after']
  by_cases isRef : d.tag.isRef = true
  · -- both are one variable, and have the same value afterwards
    rw [look_ref isRef] at alike
    generalize there : look mem e = w at alike
    cases alike with
    | var x =>
      obtain ⟨isRef', index⟩ := look_inl there
      obtain ⟨n, found⟩ := derefs
      obtain ⟨n', found'⟩ := derefs'
      have own := (isVar_of_deref found isRef).2
      have own' := (isVar_of_deref found' isRef').2
      rw [index] at own'
      rw [← own, ← own']
      exact alike_refl Joined.refl _
  · have notRef := Bool.eq_false_iff.2 isRef
    obtain ⟨l, below, below', first, first', related⟩ := step.look_after wf isValue notRef
    rw [value_eq (derefs_value notRef), first']
    rw [first] at alike
    generalize there : look mem e = w at alike
    cases alike with
    | @node _ _ belowE all =>
      have notRef' : e.tag.isRef = false := by
        rw [Bool.eq_false_iff]
        intro isRef'
        rw [look_ref isRef'] at there
        exact nomatch there
      obtain ⟨l', belowE', below'', second, second', related'⟩ :=
        step.look_after wf isValue' notRef'
      obtain ⟨rfl, rfl⟩ := Prod.mk.inj (Sum.inr.inj (second.symm.trans there))
      rw [value_eq (derefs_value notRef'), second']
      apply Alike.node
      refine forall₂_square related all related' fun x x' y y' same joined same' => ?_
      exact ((Joined.same same).symm.trans (joined.step step wf)).trans (.same same')

end Joined

section Forwards

variable {mem base : ℕ → Cell} {temp : List ℕ} {i j k l x : ℕ} {c d : Cell}

/-- The end of the chain of forwarding cells -/
abbrev Forwards (mem : ℕ → Cell) (k l : ℕ) : Prop := Finds (fun n => forward mem n k) l

theorem Forwards.tag (forwards : Forwards mem k l) : (mem l).tag ≠ .FWD := by
  obtain ⟨n, found⟩ := forwards
  induction n generalizing k with
  | zero => exact nomatch found
  | succ n ih =>
    dsimp only at found
    unfold forward at found
    split_ifs at found with isFwd
    · exact ih found
    · rwa [← Option.some.inj found]

theorem Forwards.update (forwards : Forwards mem k l) (isRef : (mem x).tag.isRef = true)
    (notFwd : c.tag ≠ .FWD) : Forwards (Function.update mem x c) k l := by
  obtain ⟨n, found⟩ := forwards
  refine ⟨n, ?_⟩
  dsimp only at found ⊢
  induction n generalizing k with
  | zero => exact nomatch found
  | succ n ih =>
    unfold forward at found ⊢
    by_cases here : k = x
    · rw [here, if_neg (ref_not_fwd isRef)] at found
      rw [here, Function.update_self, if_neg notFwd]
      exact found
    · rw [Function.update_of_ne here]
      split_ifs at found ⊢
      · exact ih found
      · exact found

theorem Forwards.link (forwards : Forwards mem k l) (notFwd : (mem i).tag ≠ .FWD)
    (notFwd' : (mem j).tag ≠ .FWD) (apart : i ≠ j) (small : j < 2 ^ 61) :
    Forwards (Function.update mem i (Cell.make .FWD j)) k (if l = i then j else l) := by
  have atJ : Function.update mem i (Cell.make .FWD j) j = mem j :=
    Function.update_of_ne (Ne.symm apart) ..
  obtain ⟨n, found⟩ := forwards
  refine ⟨n + 1, ?_⟩
  dsimp only at found ⊢
  induction n generalizing k with
  | zero => exact nomatch found
  | succ n ih =>
    unfold forward at found ⊢
    split_ifs at found with isFwd
    · have other : k ≠ i := by
        rintro rfl
        exact notFwd isFwd
      rw [Function.update_of_ne other, if_pos isFwd]
      exact ih found
    · obtain rfl := Option.some.inj found
      by_cases here : k = i
      · have link : (Cell.make .FWD j).index = j := Cell.value_make_of_lt .FWD small
        rw [here, Function.update_self, Cell.tag_make, if_pos rfl, if_pos rfl, link]
        unfold forward
        rw [atJ, if_neg notFwd']
      · rw [Function.update_of_ne here, if_neg isFwd, if_neg here]

theorem derefs_below (forwarded : Forwarded base mem temp) (derefs : Derefs mem c d)
    (notFwd : d.tag ≠ .FWD) : Derefs base c d := by
  obtain ⟨n, found⟩ := derefs
  induction n generalizing c with
  | zero => cases found
  | succ n ih =>
    dsimp only at found
    unfold deref at found
    split_ifs at found with isRef unbound
    · rw [← Option.some.inj found] at notFwd ⊢
      apply derefs_ref isRef
      rw [← forwarded.agrees (by rwa [unbound]), unbound]
      apply finds_deref_self fun _ => ?_
      rw [← forwarded.agrees (by rwa [unbound]), unbound]
    · have next := ih found
      apply derefs_ref isRef
      rwa [← forwarded.agrees]
      -- a forwarding cell there would be the value
      intro isFwd
      cases n with
      | zero => cases found
      | succ n =>
        unfold deref at found
        rw [if_neg] at found
        · rw [← Option.some.inj found] at notFwd
          exact notFwd isFwd
        · rw [isFwd]
          decide
    · rw [← Option.some.inj found]
      exact derefs_value (Bool.eq_false_iff.2 isRef)

theorem derefs_above (forwarded : Forwarded base mem temp) (derefs : Derefs base c d) :
    ∃ d', Derefs mem c d' := by
  obtain ⟨n, found⟩ := derefs
  induction n generalizing c with
  | zero => exact nomatch found
  | succ n ih =>
    dsimp only at found
    unfold deref at found
    by_cases isRef : c.tag.isRef = true
    · by_cases isFwd : (mem c.index).tag = .FWD
      · refine ⟨mem c.index, derefs_ref isRef (derefs_value ?_)⟩
        rw [isFwd]
        rfl
      · have same := forwarded.agrees isFwd
        rw [if_pos isRef] at found
        split_ifs at found with unbound
        · refine ⟨c, finds_deref_self fun _ => ?_⟩
          rw [same, unbound]
        · obtain ⟨d', next⟩ := ih found
          refine ⟨d', derefs_ref isRef ?_⟩
          rwa [same]
    · exact ⟨c, derefs_value (Bool.eq_false_iff.2 isRef)⟩

end Forwards

section Unifying

variable (R : Regions) (start : ℕ → Cell) (a b : Cell)

/-- The variables may stand for `σ`, and the terms are the same then. -/
def Solves (σ : ℕ → PathTree Label) : Prop := tree start σ a = tree start σ b

/-- What unification of `a` and `b` has reached: `base` is the heap below the forwarding cells, and
`done` are the pairs that it is through with. -/
structure Unifying (base : ℕ → Cell) (u : Unifier) (done : Cell → Cell → Prop) : Prop where
  forwarded : Forwarded base u.mem u.tempTrail
  functors : ∀ i ∈ u.tempTrail, i ∈ R.functors
  change : Step R start base
  stack : ∀ p ∈ u.stack, IsTerm R base p.1 ∧ IsTerm R base p.2
  asked : Joined R base done u.stack a b
  closed : ∀ s t, done s t → IsTerm R base s ∧ IsTerm R base t ∧
    Alike (Joined R base done u.stack) (view base s) (view base t)
  links : ∀ k ∈ R.functors, ∃ i ∈ R.functors, Forwards u.mem k i ∧
    SameArgs base (Joined R base done u.stack) k i
  follows : ∀ σ, Solves start a b σ →
    (∀ x ∈ R.terms, tree start σ (start x) = tree start σ (base x)) ∧
      ∀ p ∈ u.stack, tree start σ p.1 = tree start σ p.2

variable {R start a b} {size : ℕ} {base base' : ℕ → Cell} {u u' : Unifier}
  {done : Cell → Cell → Prop} {s t c d : Cell} {σ : ℕ → PathTree Label}

theorem tree_follows (wf : WellFormed R start size) (change : Step R start base)
    (follows : ∀ x ∈ R.terms, tree start σ (start x) = tree start σ (base x))
    (isTerm : IsTerm R base c) (derefs : Derefs base c d) : tree start σ c = tree start σ d := by
  have wf' := change.wellFormed wf
  obtain ⟨n, found⟩ := derefs
  induction n generalizing c with
  | zero => exact nomatch found
  | succ n ih =>
    dsimp only at found
    unfold deref at found
    split_ifs at found with isRef unbound
    · rw [Option.some.inj found]
    · have term := isTerm.ref isRef
      obtain ⟨e, before⟩ := wf.ends _ term
      rw [tree_eq (derefs_ref isRef before), ← tree_eq before, follows _ term]
      exact ih (wf'.cells _ term) found
    · rw [Option.some.inj found]

theorem Unifying.step (un : Unifying R start a b base u done) (wf : WellFormed R start size)
    (step : Step R base base') (forwarded : Forwarded base' u'.mem u.tempTrail)
    (links : ∀ k i, Forwards u.mem k i → Forwards u'.mem k i)
    (temp : u'.tempTrail = u.tempTrail) (stack : u'.stack = u.stack)
    (follows : ∀ σ, Solves start a b σ →
      ∀ x ∈ R.terms, tree start σ (base x) = tree start σ (base' x)) :
    Unifying R start a b base' u' done := by
  have wf' := un.change.wellFormed wf
  refine ⟨by rwa [temp], by rw [temp]; exact un.functors, un.change.trans step, ?_, ?_, ?_, ?_, ?_⟩
  · rw [stack]
    exact fun p mem => ⟨step.isTerm wf' (un.stack p mem).1, step.isTerm wf' (un.stack p mem).2⟩
  · rw [stack]
    exact un.asked.step step wf'
  · rw [stack]
    intro s t pair
    obtain ⟨isTerm, isTerm', alike⟩ := un.closed s t pair
    exact ⟨step.isTerm wf' isTerm, step.isTerm wf' isTerm',
      alike_step step wf' isTerm isTerm' alike⟩
  · rw [stack]
    intro k functor
    obtain ⟨i, functor', forwards, same⟩ := un.links k functor
    exact ⟨i, functor', links k i forwards, same.step step wf' functor functor'⟩
  · rw [stack]
    intro σ solves
    obtain ⟨bound, pairs⟩ := un.follows σ solves
    exact ⟨fun x term => (bound x term).trans (follows σ solves x term), pairs⟩

theorem Unifying.pop (un : Unifying R start a b base u done) {stack : List (Cell × Cell)}
    (pairs : List (Cell × Cell))
    (popped : u.stack = (s, t) :: stack) (pushed : u'.stack = pairs ++ stack)
    (forwarded : Forwarded base u'.mem u'.tempTrail)
    (functors : ∀ i ∈ u'.tempTrail, i ∈ R.functors)
    (terms : ∀ p ∈ pairs, IsTerm R base p.1 ∧ IsTerm R base p.2)
    (alike : Alike (Joined R base (fun s' t' => done s' t' ∨ s' = s ∧ t' = t) (pairs ++ stack))
      (view base s) (view base t))
    (links : ∀ k ∈ R.functors, ∃ i ∈ R.functors, Forwards u'.mem k i ∧ SameArgs base
      (Joined R base (fun s' t' => done s' t' ∨ s' = s ∧ t' = t) (pairs ++ stack)) k i)
    (follows : ∀ σ, Solves start a b σ → ∀ p ∈ pairs, tree start σ p.1 = tree start σ p.2) :
    Unifying R start a b base u' fun s' t' => done s' t' ∨ s' = s ∧ t' = t := by
  have older (p : Cell × Cell) (mem : p ∈ stack) : p ∈ u.stack := by
    rw [popped]
    exact List.mem_cons_of_mem _ mem
  refine ⟨forwarded, functors, un.change, ?_, ?_, ?_, ?_, ?_⟩
  · rw [pushed]
    exact fun p mem => (List.mem_append.1 mem).elim (terms p) fun mem => un.stack p (older p mem)
  · rw [pushed]
    have asked := un.asked
    rw [popped] at asked
    exact asked.pop _
  · rw [pushed]
    rintro c d (pair | ⟨rfl, rfl⟩)
    · obtain ⟨isTerm, isTerm', alike⟩ := un.closed c d pair
      rw [popped] at alike
      exact ⟨isTerm, isTerm', alike.imp fun _ _ => .pop _⟩
    · have here : (c, d) ∈ u.stack := by
        rw [popped]
        exact List.mem_cons_self
      exact ⟨(un.stack _ here).1, (un.stack _ here).2, alike⟩
  · rw [pushed]
    exact links
  · rw [pushed]
    intro σ solves
    obtain ⟨bound, pairs'⟩ := un.follows σ solves
    refine ⟨bound, fun p mem => ?_⟩
    exact (List.mem_append.1 mem).elim (follows σ solves p) fun mem => pairs' p (older p mem)

theorem Unifying.skip (un : Unifying R start a b base u done) {stack : List (Cell × Cell)}
    (popped : u.stack = (s, t) :: stack)
    (alike : Alike (Joined R base (fun s' t' => done s' t' ∨ s' = s ∧ t' = t) stack)
      (view base s) (view base t)) :
    Unifying R start a b base { u with stack := stack }
      fun s' t' => done s' t' ∨ s' = s ∧ t' = t := by
  refine un.pop [] popped rfl un.forwarded un.functors nofun alike ?_ fun _ _ => nofun
  intro k functor
  obtain ⟨i, functor', forwards, same⟩ := un.links k functor
  rw [popped] at same
  exact ⟨i, functor', forwards, same.imp fun _ _ => .pop _⟩

theorem Unifying.values (un : Unifying R start a b base u done) (wf : WellFormed R start size)
    {stack : List (Cell × Cell)} (popped : u.stack = (s, t) :: stack) (derefs : Derefs base s c)
    (derefs' : Derefs base t d) (solves : Solves start a b σ) :
    tree start σ c = tree start σ d := by
  obtain ⟨bound, pairs⟩ := un.follows σ solves
  have here : (s, t) ∈ u.stack := by
    rw [popped]
    exact List.mem_cons_self
  obtain ⟨isTerm, isTerm'⟩ := un.stack _ here
  rw [← tree_follows wf un.change bound isTerm derefs,
    ← tree_follows wf un.change bound isTerm' derefs']
  exact pairs _ here

theorem labels_eq {l l' : Label} {below below' : List Cell}
    (equal : tree start σ c = tree start σ d) (notRef : c.tag.isRef = false)
    (notRef' : d.tag.isRef = false) (shape : look start c = .inr (l, below))
    (shape' : look start d = .inr (l', below')) :
    l = l' ∧ ∀ (k : ℕ) e e', below[k]? = some e → below'[k]? = some e' →
      tree start σ e = tree start σ e' :=
  den_inj equal ((view_eq (derefs_value notRef)).trans shape)
    ((view_eq (derefs_value notRef')).trans shape')

theorem mem_of_notMem {mem : ℕ → Cell} {temp : List ℕ} {x : ℕ}
    (forwarded : Forwarded base mem temp) (absent : x ∉ temp) : mem x = base x := by
  induction forwarded with
  | none => rfl
  | cons _ _ _ _ _ ih =>
    rw [List.mem_cons, not_or] at absent
    rw [Function.update_of_ne absent.1]
    exact ih absent.2

theorem Unifying.cell (un : Unifying R start a b base u done) (wf : WellFormed R start size) {x : ℕ}
    (notCon : (base x).tag ≠ .CON) : u.mem x = base x := by
  apply mem_of_notMem un.forwarded
  intro listed
  exact notCon ((un.change.wellFormed wf).functors x (un.functors x listed)).2.1

theorem tree_ref (wf : WellFormed R start size) (isRef : c.tag.isRef = true)
    (isRef' : d.tag.isRef = true) (index : c.index = d.index) (term : c.index ∈ R.terms) :
    tree start σ c = tree start σ d := by
  obtain ⟨e, before⟩ := wf.ends _ term
  rw [tree_eq (derefs_ref isRef before), tree_eq (derefs_ref isRef' (index ▸ before))]

def SameForwards (mem mem' : ℕ → Cell) : Prop := ∀ x, (mem' x).tag = .FWD ↔ (mem x).tag = .FWD

theorem sameForwards_update {mem : ℕ → Cell} {x : ℕ} (isRef : (mem x).tag.isRef = true)
    (notFwd : c.tag ≠ .FWD) : SameForwards mem (Function.update mem x c) := by
  intro y
  by_cases here : y = x
  · rw [here, Function.update_self]
    exact iff_of_false notFwd (ref_not_fwd isRef)
  · rw [Function.update_of_ne here]

/-- A variable may be watched before another one is bound to it. -/
structure Watched (R : Regions) (start base base' : ℕ → Cell) (u u' : Unifier) (r v : Cell) :
    Prop where
  step : Step R base base'
  forwarded : Forwarded base' u'.mem u.tempTrail
  links : ∀ k i, Forwards u.mem k i → Forwards u'.mem k i
  temp : u'.tempTrail = u.tempTrail
  stack : u'.stack = u.stack
  own : base' r.index = r
  cell : u'.mem r.index = r
  isVar : v.tag.isRef = true → IsVar base' v.index
  follows : ∀ σ, ∀ x ∈ R.terms, tree start σ (base x) = tree start σ (base' x)
  same : SameForwards u.mem u'.mem

theorem Unifying.watch (un : Unifying R start a b base u done) (wf : WellFormed R start size)
    {r v : Cell} (isTerm : IsTerm R base v) (isRef : r.tag.isRef = true) (own : base r.index = r)
    (isRef' : v.tag.isRef = true) (own' : base v.index = v) (apart : r.index ≠ v.index) :
    ∃ base', Watched R start base base' u (u.watch v.index) r v := by
  have atV : u.mem v.index = v := by
    rw [un.cell wf, own']
    rw [own']
    exact ref_not_con isRef'
  have atR : u.mem r.index = r := by
    rw [un.cell wf, own]
    rw [own]
    exact ref_not_con isRef
  have isVar : IsVar base v.index := by
    rw [IsVar, own']
    exact ⟨isRef', rfl⟩
  unfold Unifier.watch
  by_cases plain : (u.mem v.index).tag = .REF
  · rw [if_pos plain, atV]
    have tag : (Cell.make .RFW v.index).tag = .RFW := Cell.tag_make ..
    have index : (Cell.make .RFW v.index).index = v.index :=
      Cell.value_make_of_lt .RFW (Cell.value_lt v)
    have watched : (Cell.make .RFW v.index).tag.isRef = true := by
      rw [tag]
      rfl
    have term := isTerm.ref isRef'
    have notFwd : (Cell.make .RFW v.index).tag ≠ .FWD := by
      rw [tag]
      decide
    have self : Derefs (Function.update base v.index (Cell.make .RFW v.index))
        (Cell.make .RFW v.index) (Cell.make .RFW v.index) := by
      apply finds_deref_self fun _ => ?_
      rw [index, Function.update_self]
    refine ⟨_, ⟨step_update (un.change.wellFormed wf) isVar term ?_ self, ?_,
      fun k i forwards => ?_, rfl, rfl, ?_, ?_, fun _ => ?_, fun σ x term' => ?_, ?_⟩⟩
    · refine ⟨by rw [tag]; decide, fun _ => by rwa [index], ?_, ?_⟩
      · rw [tag]
        rintro ⟨⟩
      · rw [tag]
        rintro ⟨⟩
    · apply un.forwarded.bind
      rw [atV]
      exact isRef'
    · apply forwards.update _ notFwd
      rw [atV]
      exact isRef'
    · rw [Function.update_of_ne apart, own]
    · dsimp only
      rw [Function.update_of_ne apart, atR]
    · rw [IsVar, Function.update_self]
      exact ⟨watched, index⟩
    · by_cases here : x = v.index
      · rw [here, Function.update_self, own']
        exact tree_ref wf isRef' watched index.symm term
      · rw [Function.update_of_ne here]
    · apply sameForwards_update _ notFwd
      rw [atV]
      exact isRef'
  · rw [if_neg plain]
    exact ⟨base, ⟨⟨.refl base, fun _ _ => rfl, (un.change.wellFormed wf).cells,
      (un.change.wellFormed wf).ends⟩, un.forwarded, fun _ _ forwards => forwards, rfl, rfl, own,
      atR, fun _ => isVar, fun _ _ _ => rfl, fun _ => Iff.rfl⟩⟩

theorem IsTerm.own (wf : WellFormed R base size) {c' : Cell} (derefs : Derefs base c' c)
    (isTerm : IsTerm R base c') (isRef : c.tag.isRef = true) :
    base c.index = c ∧ c.index ∈ R.terms := by
  have isTerm' := derefs.isTerm wf isTerm
  obtain ⟨n, found⟩ := derefs
  exact ⟨(isVar_of_deref found isRef).2, isTerm'.ref isRef⟩

theorem Unifying.bind (un : Unifying R start a b base u done) (wf : WellFormed R start size)
    {stack : List (Cell × Cell)} (popped : u.stack = (s, t) :: stack) (derefs : Derefs base s c)
    (derefs' : Derefs base t d) {r v : Cell} {u₁ : Unifier} (pair : boundPair c d = some (r, v))
    (watched : u₁ = { u with stack := stack } ∨ r.tag = .RFW ∧ v.tag.isRef = true ∧
      u₁ = ({ u with stack := stack } : Unifier).watch v.index) :
    ∃ base' done', Unifying R start a b base' (u₁.bind r v) done' ∧ (u₁.bind r v).stack = stack ∧
      SameForwards u.mem (u₁.bind r v).mem := by
  have wf' := un.change.wellFormed wf
  have here : (s, t) ∈ u.stack := by
    rw [popped]
    exact List.mem_cons_self
  obtain ⟨isTerm, isTerm'⟩ := un.stack _ here
  obtain ⟨which, isRef, differ⟩ := boundPair_spec pair
  -- what is known of the two values is known of `r` and `v`
  obtain ⟨own, term, termV, ownV⟩ : base r.index = r ∧ r.index ∈ R.terms ∧ IsTerm R base v ∧
      (v.tag.isRef = true → base v.index = v) := by
    rcases which with ⟨rfl, rfl⟩ | ⟨rfl, rfl⟩
    · obtain ⟨own, term⟩ := IsTerm.own wf' derefs isTerm isRef
      exact ⟨own, term, derefs'.isTerm wf' isTerm', fun isRef' =>
        (IsTerm.own wf' derefs' isTerm' isRef').1⟩
    · obtain ⟨own, term⟩ := IsTerm.own wf' derefs' isTerm' isRef
      exact ⟨own, term, derefs.isTerm wf' isTerm, fun isRef' =>
        (IsTerm.own wf' derefs isTerm isRef').1⟩
  have apart (isRef' : v.tag.isRef = true) : r.index ≠ v.index := by
    intro index
    apply differ
    rw [← own, ← ownV isRef', index]
  have solved (σ : ℕ → PathTree Label) (solves : Solves start a b σ) :
      tree start σ r = tree start σ v := by
    have equal := un.values wf popped derefs derefs' solves
    rcases which with ⟨rfl, rfl⟩ | ⟨rfl, rfl⟩
    · exact equal
    · exact equal.symm
  have atR : u.mem r.index = r := by
    rw [un.cell wf, own]
    rw [own]
    exact ref_not_con isRef
  obtain ⟨base₁, u₂, first, same⟩ : ∃ base₁ u₂, Watched R start base base₁ u u₂ r v ∧
      u₁ = { u₂ with stack := stack } := by
    rcases watched with rfl | ⟨_, isRef', rfl⟩
    · refine ⟨base, u, ⟨⟨.refl base, fun _ _ => rfl, wf'.cells, wf'.ends⟩, un.forwarded,
        fun _ _ forwards => forwards, rfl, rfl, own, atR, fun isRef' => ?_, fun _ _ _ => rfl,
        fun _ => Iff.rfl⟩, rfl⟩
      rw [IsVar, ownV isRef']
      exact ⟨isRef', rfl⟩
    · obtain ⟨base₁, first⟩ := un.watch wf termV isRef own isRef' (ownV isRef') (apart isRef')
      refine ⟨base₁, _, first, ?_⟩
      unfold Unifier.watch
      dsimp only
      split_ifs
      · rfl
      · rfl
  have wf₁ := first.step.wellFormed wf'
  have isVar : IsVar base₁ r.index := by
    rw [IsVar, first.own]
    exact ⟨isRef, rfl⟩
  have notFwd := termV.tag.2
  have isRef₂ : (u₂.mem r.index).tag.isRef = true := by
    rw [first.cell]
    exact isRef
  obtain ⟨e, ends⟩ : ∃ e, Derefs (Function.update base₁ r.index v) v e := by
    by_cases isRef' : v.tag.isRef = true
    · have isVar' : IsVar (Function.update base₁ r.index v) v.index := by
        rw [IsVar, Function.update_of_ne (apart isRef').symm]
        exact first.isVar isRef'
      exact ⟨_, derefs_ref isRef' (derefs_var isVar')⟩
    · exact ⟨v, derefs_value (Bool.eq_false_iff.2 isRef')⟩
  have second := step_update wf₁ isVar term (first.step.isTerm wf' termV) ends
  have step := first.step.trans second
  have bound : Unifying R start a b (Function.update base₁ r.index v)
      { u₁.bind r v with stack := u.stack } done := by
    apply un.step wf step
    · rw [same]
      exact first.forwarded.bind isRef₂ v
    · intro k i forwards
      rw [same]
      exact (first.links k i forwards).update isRef₂ notFwd
    · rw [same]
      exact first.temp
    · rfl
    · intro σ solves x term'
      rw [first.follows σ x term']
      by_cases here : x = r.index
      · rw [here, first.own, Function.update_self]
        exact solved σ solves
      · rw [Function.update_of_ne here]
  have equal : value (Function.update base₁ r.index v) s =
      value (Function.update base₁ r.index v) t := by
    have value_r : value (Function.update base₁ r.index v) r = e := by
      apply value_eq
      apply derefs_ref isRef
      rwa [Function.update_self]
    rw [step.value_after wf' isTerm, step.value_after wf' isTerm', value_eq derefs,
      value_eq derefs']
    rcases which with ⟨rfl, rfl⟩ | ⟨rfl, rfl⟩
    · rw [value_r, value_eq ends]
    · rw [value_r, value_eq ends]
  have alike : Alike (Joined R (Function.update base₁ r.index v)
      (fun s' t' => done s' t' ∨ s' = s ∧ t' = t) stack)
      (view (Function.update base₁ r.index v) s) (view (Function.update base₁ r.index v) t) := by
    unfold view
    rw [equal]
    exact alike_refl Joined.refl _
  have after := bound.skip popped alike
  have whole : ({ u₁.bind r v with stack := stack } : Unifier) = u₁.bind r v := by
    rw [same]
    rfl
  dsimp only at after
  rw [whole] at after
  refine ⟨_, _, after, ?_, fun x => ?_⟩
  · rw [same]
    rfl
  · rw [same]
    exact (sameForwards_update isRef₂ notFwd x).trans (first.same x)

theorem Unifying.root (un : Unifying R start a b base u done) {k i : ℕ}
    (functor : k ∈ R.functors) (forwards : Forwards u.mem k i) :
    i ∈ R.functors ∧ u.mem i = base i ∧ SameArgs base (Joined R base done u.stack) k i := by
  obtain ⟨i', functor', forwards', same⟩ := un.links k functor
  obtain rfl := Finds.unique (forward_lasting k) forwards forwards'
  exact ⟨functor', un.forwarded.agrees forwards.tag, same⟩

theorem alike_str {J : Cell → Cell → Prop} (derefs : Derefs base s c) (derefs' : Derefs base t d)
    (isStr : c.tag = .STR) (isStr' : d.tag = .STR) (same : SameArgs base J c.index d.index) :
    Alike J (view base s) (view base t) := by
  rw [view_eq derefs, view_eq derefs', look_str isStr, look_str isStr', ← same.functor]
  exact .node _ (args_related same.args)

theorem forall₂_mem {α β : Type} {P : α → β → Prop} {l : List α} {l' : List β}
    (all : List.Forall₂ P l l') :
    (∀ x ∈ l, ∃ y ∈ l', P x y) ∧ ∀ y ∈ l', ∃ x ∈ l, P x y := by
  induction all with
  | nil => exact ⟨nofun, nofun⟩
  | cons related _ ih =>
    obtain ⟨left, right⟩ := ih
    constructor
    · intro x mem
      rcases List.mem_cons.1 mem with rfl | mem
      · exact ⟨_, List.mem_cons_self, related⟩
      · obtain ⟨y, mem', found⟩ := left x mem
        exact ⟨y, List.mem_cons_of_mem _ mem', found⟩
    · intro y mem
      rcases List.mem_cons.1 mem with rfl | mem
      · exact ⟨_, List.mem_cons_self, related⟩
      · obtain ⟨x, mem', found⟩ := right y mem
        exact ⟨x, List.mem_cons_of_mem _ mem', found⟩

/-- No forwarding cell has been taken for a term: none is on the stack, and none is the value of
the two terms on top. -/
structure Unforwarded (u : Unifier) : Prop where
  stack : ∀ p ∈ u.stack, p.1.tag ≠ .FWD ∧ p.2.tag ≠ .FWD
  top : ∀ s t stack, u.stack = (s, t) :: stack →
    ∀ d, Derefs u.mem s d ∨ Derefs u.mem t d → d.tag ≠ .FWD

theorem pushed_args {mem : ℕ → Cell} {n arity : ℕ} {pairs : List (Cell × Cell)}
    (pushed : argPairs mem n c d arity = some pairs) (isStr : c.tag = .STR)
    (isStr' : d.tag = .STR) :
    List.Forall₂ (fun k p => Derefs mem (mem (c.index + k + 1)) p.1 ∧
      Derefs mem (mem (d.index + k + 1)) p.2) (List.range arity) pairs := by
  have own {c : Cell} (isStr : c.tag = .STR) : Derefs mem c c := derefs_value (str_not_ref isStr)
  refine (mapM_eq_some.1 pushed).imp fun k p both => ?_
  obtain ⟨x, first, both⟩ := Option.bind_eq_some_iff.1 both
  obtain ⟨y, second, both⟩ := Option.bind_eq_some_iff.1 both
  cases both
  obtain ⟨c', atC, found⟩ := Option.bind_eq_some_iff.1 first
  obtain ⟨d', atD, found'⟩ := Option.bind_eq_some_iff.1 second
  obtain rfl := Derefs.unique ⟨n, atC⟩ (own isStr)
  obtain rfl := Derefs.unique ⟨n, atD⟩ (own isStr')
  exact ⟨⟨n, found⟩, ⟨n, found'⟩⟩

theorem Unifying.merge (un : Unifying R start a b base u done) (wf : WellFormed R start size)
    {stack pairs : List (Cell × Cell)} (popped : u.stack = (s, t) :: stack)
    (derefs : Derefs base s c) (derefs' : Derefs base t d) (isStr : c.tag = .STR)
    (isStr' : d.tag = .STR) {n i j : ℕ} (leads : Forwards u.mem c.index i)
    (leads' : Forwards u.mem d.index j) (isCon : (u.mem i).tag = .CON) (apart : i ≠ j)
    (same : u.mem i = u.mem j) (pushed : argPairs
      (Function.update u.mem i (Cell.make .FWD j)) n c d (u.mem i).arity = some pairs)
    (unforwarded : Unforwarded (({ u with stack := stack } : Unifier).merge i j pairs)) :
    Unifying R start a b base (({ u with stack := stack } : Unifier).merge i j pairs)
      fun s' t' => done s' t' ∨ s' = s ∧ t' = t := by
  have wf' := un.change.wellFormed wf
  have here : (s, t) ∈ u.stack := by
    rw [popped]
    exact List.mem_cons_self
  have isTerm := derefs.isTerm wf' (un.stack _ here).1
  have isTerm' := derefs'.isTerm wf' (un.stack _ here).2
  have functor := isTerm.str isStr
  have functor' := isTerm'.str isStr'
  obtain ⟨functorI, atI, sameI⟩ := un.root functor leads
  obtain ⟨functorJ, atJ, sameJ⟩ := un.root functor' leads'
  have small : j < 2 ^ 61 := by
    obtain ⟨m, found⟩ := leads'
    exact forward_lt found d.value_lt
  have forwarded := Forwarded.cons un.forwarded isCon apart same small
  have label : base c.index = base d.index := by
    rw [sameI.functor, sameJ.functor, ← atI, ← atJ, same]
  have arity : (u.mem i).arity = (base c.index).arity := by rw [atI, sameI.functor]
  have all := pushed_args pushed isStr isStr'
  rw [arity] at all
  obtain ⟨each, pushedFrom⟩ := forall₂_mem all
  -- no argument has been forwarded
  have below {x : ℕ} {e : Cell} (found : Derefs (Function.update u.mem i (Cell.make .FWD j))
      (Function.update u.mem i (Cell.make .FWD j) x) e) (notFwd : e.tag ≠ .FWD) :
      Derefs base (base x) e := by
    have agrees : Function.update u.mem i (Cell.make .FWD j) x = base x := by
      apply forwarded.agrees
      intro isFwd
      apply notFwd
      rw [found.unique (derefs_value (by rw [isFwd]; rfl)), isFwd]
    rw [← agrees]
    exact derefs_below forwarded found notFwd
  have plain (p : Cell × Cell) (mem : p ∈ pairs) (x y : ℕ)
      (found : Derefs (Function.update u.mem i (Cell.make .FWD j))
        (Function.update u.mem i (Cell.make .FWD j) x) p.1)
      (found' : Derefs (Function.update u.mem i (Cell.make .FWD j))
        (Function.update u.mem i (Cell.make .FWD j) y) p.2) :
      Derefs base (base x) p.1 ∧ Derefs base (base y) p.2 := by
    obtain ⟨notFwd, notFwd'⟩ := unforwarded.stack p (List.mem_append_left _ mem)
    exact ⟨below found notFwd, below found' notFwd'⟩
  have cells {k : ℕ} (small : k < (base c.index).arity) :
      c.index + k + 1 ∈ R.terms ∧ d.index + k + 1 ∈ R.terms :=
    ⟨(wf'.functors _ functor).2.2 k small,
      (wf'.functors _ functor').2.2 k (by rwa [← label])⟩
  have joined : SameArgs base (Joined R base (fun s' t' => done s' t' ∨ s' = s ∧ t' = t)
      (pairs ++ stack)) c.index d.index := by
    refine ⟨label, fun k small => ?_⟩
    obtain ⟨p, mem, found, found'⟩ := each k (List.mem_range.2 small)
    obtain ⟨first, second⟩ := plain p mem _ _ found found'
    obtain ⟨term, term'⟩ := cells small
    have left : SameValue R base (base (c.index + k + 1)) p.1 :=
      ⟨wf'.cells _ term, first.isTerm wf' (wf'.cells _ term),
        (value_eq first).trans (value_eq first.self).symm⟩
    have right : SameValue R base (base (d.index + k + 1)) p.2 :=
      ⟨wf'.cells _ term', second.isTerm wf' (wf'.cells _ term'),
        (value_eq second).trans (value_eq second.self).symm⟩
    exact ((Joined.same left).trans (.listed (List.mem_append_left _ mem))).trans
      (Joined.same right).symm
  refine un.pop pairs popped rfl forwarded ?_ ?_ (alike_str derefs derefs' isStr isStr'
    joined) ?_ ?_
  · intro x mem
    rcases List.mem_cons.1 mem with rfl | mem
    · exact functorI
    · exact un.functors x mem
  · intro p mem
    obtain ⟨k, listed, found, found'⟩ := pushedFrom p mem
    obtain ⟨first, second⟩ := plain p mem _ _ found found'
    obtain ⟨term, term'⟩ := cells (List.mem_range.1 listed)
    exact ⟨first.isTerm wf' (wf'.cells _ term), second.isTerm wf' (wf'.cells _ term')⟩
  · intro k functorK
    obtain ⟨l, functorL, forwards, sameL⟩ := un.links k functorK
    have linked := forwards.link leads.tag leads'.tag apart small
    rw [popped] at sameI sameJ sameL
    have lift {x y : ℕ} (related : SameArgs base (Joined R base done ((s, t) :: stack)) x y) :
        SameArgs base (Joined R base (fun s' t' => done s' t' ∨ s' = s ∧ t' = t)
          (pairs ++ stack)) x y :=
      related.imp fun _ _ => .pop _
    by_cases root : l = i
    · rw [if_pos root] at linked
      refine ⟨j, functorJ, linked, ?_⟩
      rw [root] at sameL
      exact (((lift sameL).trans (lift sameI).symm).trans joined).trans (lift sameJ)
    · rw [if_neg root] at linked
      exact ⟨l, functorL, linked, lift sameL⟩
  · intro σ solves p mem
    obtain ⟨k, listed, found, found'⟩ := pushedFrom p mem
    obtain ⟨first, second⟩ := plain p mem _ _ found found'
    have small := List.mem_range.1 listed
    obtain ⟨term, term'⟩ := cells small
    have follows := (un.follows σ solves).1
    have equal := un.values wf popped derefs derefs' solves
    rw [← tree_follows wf un.change follows (wf'.cells _ term) first,
      ← tree_follows wf un.change follows (wf'.cells _ term') second, ← follows _ term,
      ← follows _ term']
    have startC := un.change.functor wf _ functor
    have startD := un.change.functor wf _ functor'
    have parts := labels_eq equal (str_not_ref isStr) (str_not_ref isStr') (look_str isStr)
      (look_str isStr')
    refine parts.2 k _ _ ?_ ?_
    · rw [← startC]
      unfold args
      rw [List.getElem?_map, List.getElem?_range small]
      rfl
    · rw [← startD]
      unfold args
      rw [List.getElem?_map, List.getElem?_range (by rwa [← label])]
      rfl

theorem look_value {mem : ℕ → Cell} (isTerm : IsTerm R mem c) (notRef : c.tag.isRef = false) :
    (c.tag = .CON ∨ c.tag = .INT) ∧ look mem c = .inr (.const c, []) ∨
      c.tag = .STR ∧ look mem c = .inr (.functor (mem c.index), args mem c (mem c.index)) ∨
      c.tag = .BIG ∧ look mem c = .inr (.big (bigBytes mem c), []) := by
  obtain ⟨notDat, notFwd⟩ := isTerm.tag
  cases tag : c.tag with
  | CON => exact .inl ⟨.inl rfl, look_const (.inl tag)⟩
  | INT => exact .inl ⟨.inr rfl, look_const (.inr tag)⟩
  | STR => exact .inr (.inl ⟨rfl, look_str tag⟩)
  | BIG => exact .inr (.inr ⟨rfl, look_big tag⟩)
  | DAT => exact absurd tag notDat
  | FWD => exact absurd tag notFwd
  | REF | RFW =>
    rw [tag] at notRef
    exact nomatch notRef

theorem Unifying.clash (un : Unifying R start a b base u done) (wf : WellFormed R start size)
    {stack : List (Cell × Cell)} (popped : u.stack = (s, t) :: stack) (derefs : Derefs base s c)
    (derefs' : Derefs base t d) (notRef : c.tag.isRef = false) (notRef' : d.tag.isRef = false)
    {l l' : Label} {below below' : List Cell} (shape : look base c = .inr (l, below))
    (shape' : look base d = .inr (l', below')) (apart : l ≠ l') (σ : ℕ → PathTree Label) :
    ¬ Solves start a b σ := by
  intro solves
  have wf' := un.change.wellFormed wf
  have here : (s, t) ∈ u.stack := by
    rw [popped]
    exact List.mem_cons_self
  have data (x : ℕ) (isData : x ∈ R.data) : start x = base x :=
    (un.change.data wf x isData).symm
  have isTerm := (derefs.isTerm wf' (un.stack _ here).1).congr data
  have isTerm' := (derefs'.isTerm wf' (un.stack _ here).2).congr data
  obtain ⟨l₁, _, _, before, after, _⟩ := un.change.look_after wf isTerm notRef
  obtain ⟨l₂, _, _, before', after', _⟩ := un.change.look_after wf isTerm' notRef'
  obtain ⟨rfl, _⟩ := Prod.mk.inj (Sum.inr.inj (after.symm.trans shape))
  obtain ⟨rfl, _⟩ := Prod.mk.inj (Sum.inr.inj (after'.symm.trans shape'))
  have equal := un.values wf popped derefs derefs' solves
  exact apart (labels_eq equal notRef notRef' before before').1

theorem Unifying.bigBytes_eq (un : Unifying R start a b base u done) (wf : WellFormed R start size)
    (isTerm : IsTerm R base c) (isBig : c.tag = .BIG) : bigBytes u.mem c = bigBytes base c := by
  refine bigBytes_congr isTerm isBig fun x isData => mem_of_notMem un.forwarded fun listed => ?_
  exact (wf.data x isData).2 (un.functors x listed)

theorem Unifying.turn (un : Unifying R start a b base u done) (wf : WellFormed R start size)
    {stack : List (Cell × Cell)} (popped : u.stack = (s, t) :: stack) (plain : Unforwarded u)
    {n : ℕ} {more : Bool} (ran : turn n { u with stack := stack } s t = some (more, u')) :
    (more = false → ∀ σ, ¬ Solves start a b σ) ∧ (more = true →
      (Unforwarded u' → ∃ base' done', Unifying R start a b base' u' done') ∧
      (u'.stack = stack ∧ SameForwards u.mem u'.mem ∨ ∃ i < size, (u.mem i).tag ≠ .FWD ∧
        ∃ j, u'.mem = Function.update u.mem i (Cell.make .FWD j))) := by
  have wf' := un.change.wellFormed wf
  have here : (s, t) ∈ u.stack := by
    rw [popped]
    exact List.mem_cons_self
  obtain ⟨c, d, atS, atT, turned⟩ := turn_turns ran
  have found : Derefs u.mem s c := ⟨n, atS⟩
  have found' : Derefs u.mem t d := ⟨n, atT⟩
  have derefs := derefs_below un.forwarded found (plain.top s t stack popped _ (.inl found))
  have derefs' := derefs_below un.forwarded found' (plain.top s t stack popped _ (.inr found'))
  have isTerm := derefs.isTerm wf' (un.stack _ here).1
  have isTerm' := derefs'.isTerm wf' (un.stack _ here).2
  have skip (alike : Alike (Joined R base (fun s' t' => done s' t' ∨ s' = s ∧ t' = t) stack)
      (view base s) (view base t)) : (Unforwarded { u with stack := stack } →
      ∃ base' done', Unifying R start a b base' { u with stack := stack } done') ∧
      (({ u with stack := stack } : Unifier).stack = stack ∧ SameForwards u.mem u.mem ∨
        ∃ i < size, (u.mem i).tag ≠ .FWD ∧
          ∃ j, u.mem = Function.update u.mem i (Cell.make .FWD j)) :=
    ⟨fun _ => ⟨base, _, un.skip popped alike⟩, .inl ⟨rfl, fun _ => Iff.rfl⟩⟩
  cases turned with
  | equal same =>
    refine ⟨nofun, fun _ => skip ?_⟩
    rw [view_eq derefs, view_eq derefs', same]
    exact alike_refl Joined.refl _
  | bind r v u₁ pair watched =>
    obtain ⟨base', done', bound, rest, sameForwards⟩ :=
      un.bind wf popped derefs derefs' pair watched
    exact ⟨nofun, fun _ => ⟨fun _ => ⟨base', done', bound⟩, .inl ⟨rest, sameForwards⟩⟩⟩
  | clash apart isValue isValue' reason =>
    refine ⟨fun _ => ?_, nofun⟩
    rcases look_value isTerm isValue with ⟨tag, shape⟩ | ⟨tag, shape⟩ | ⟨tag, shape⟩
    · rcases look_value isTerm' isValue' with ⟨_, shape'⟩ | ⟨_, shape'⟩ | ⟨_, shape'⟩
      · exact un.clash wf popped derefs derefs' isValue isValue' shape shape' fun same =>
          apart (Label.const.inj same)
      · exact un.clash wf popped derefs derefs' isValue isValue' shape shape' nofun
      · exact un.clash wf popped derefs derefs' isValue isValue' shape shape' nofun
    · rcases look_value isTerm' isValue' with ⟨_, shape'⟩ | ⟨tag', _⟩ | ⟨_, shape'⟩
      · exact un.clash wf popped derefs derefs' isValue isValue' shape shape' nofun
      · rw [tag, tag'] at reason
        exact absurd reason (by decide)
      · exact un.clash wf popped derefs derefs' isValue isValue' shape shape' nofun
    · rcases look_value isTerm' isValue' with ⟨_, shape'⟩ | ⟨_, shape'⟩ | ⟨tag', _⟩
      · exact un.clash wf popped derefs derefs' isValue isValue' shape shape' nofun
      · exact un.clash wf popped derefs derefs' isValue isValue' shape shape' nofun
      · rw [tag, tag'] at reason
        exact absurd reason (by decide)
  | big isBig isBig' =>
    have bytes : bigBytes u.mem c = bigBytes base c := un.bigBytes_eq wf isTerm isBig
    have bytes' : bigBytes u.mem d = bigBytes base d := un.bigBytes_eq wf isTerm' isBig'
    have isValue {e : Cell} (isBig : e.tag = .BIG) : e.tag.isRef = false := by
      rw [isBig]
      rfl
    constructor
    · intro differ
      apply un.clash wf popped derefs derefs' (isValue isBig) (isValue isBig') (look_big isBig)
        (look_big isBig')
      intro same
      rw [decide_eq_false_iff_not] at differ
      apply differ
      rw [bytes, bytes', Label.big.inj same]
    · intro same
      rw [decide_eq_true_eq, bytes, bytes'] at same
      apply skip
      rw [view_eq derefs, view_eq derefs', look_big isBig, look_big isBig', same]
      exact .node _ .nil
  | linked m i isStr isStr' leads leads' =>
    refine ⟨nofun, fun _ => skip (alike_str derefs derefs' isStr isStr' ?_)⟩
    obtain ⟨_, _, first⟩ := un.root (isTerm.str isStr) ⟨m, leads⟩
    obtain ⟨_, _, second⟩ := un.root (isTerm'.str isStr') ⟨m, leads'⟩
    rw [popped] at first second
    exact (first.trans second.symm).imp fun _ _ joined => joined.pop []
  | functors m i j isStr isStr' leads leads' isCon apart =>
    refine ⟨fun _ => ?_, nofun⟩
    obtain ⟨_, atI, first⟩ := un.root (isTerm.str isStr) ⟨m, leads⟩
    obtain ⟨_, atJ, second⟩ := un.root (isTerm'.str isStr') ⟨m, leads'⟩
    apply un.clash wf popped derefs derefs' (str_not_ref isStr) (str_not_ref isStr')
      (look_str isStr) (look_str isStr')
    intro same
    apply apart
    have same := Label.functor.inj same
    rw [first.functor, second.functor] at same
    exact atI.trans (same.trans atJ.symm)
  | merge m i j pairs isStr isStr' leads leads' isCon apart same pushed =>
    have merged := un.merge wf popped derefs derefs' isStr isStr' ⟨m, leads⟩
      ⟨m, leads'⟩ isCon apart same pushed
    refine ⟨nofun, fun _ => ⟨fun unforwarded => ⟨base, _, merged unforwarded⟩,
      .inr ⟨i, ?_, ?_, j, rfl⟩⟩⟩
    · exact (wf'.functors i (un.root (isTerm.str isStr) ⟨m, leads⟩).1).1
    · exact Forwards.tag ⟨m, leads⟩
  | other apart sameTag rest =>
    exact absurd rest (not_or.2 isTerm.tag)

theorem argPairs_some (wf : WellFormed R base size) {mem : ℕ → Cell} {temp : List ℕ}
    (forwarded : Forwarded base mem temp) (isStr : c.tag = .STR) (isStr' : d.tag = .STR) (arity : ℕ)
    (terms : ∀ k < arity, c.index + k + 1 ∈ R.terms ∧ d.index + k + 1 ∈ R.terms) :
    ∃ pairs, Finds (fun n => argPairs mem n c d arity) pairs := by
  have finds {e : Cell} (isStr : e.tag = .STR) {k : ℕ} (term : e.index + k + 1 ∈ R.terms) :
      ∃ x, Finds (fun n => arg mem n e k) x := by
    have own : Derefs mem e e := derefs_value (str_not_ref isStr)
    obtain ⟨x, value⟩ : ∃ x, Derefs mem (mem (e.index + k + 1)) x := by
      by_cases isFwd : (mem (e.index + k + 1)).tag = .FWD
      · refine ⟨_, derefs_value ?_⟩
        rw [isFwd]
        rfl
      · obtain ⟨x, below⟩ := wf.ends _ term
        rw [forwarded.agrees isFwd]
        exact derefs_above forwarded below
    exact ⟨x, finds_bind (f := fun (s : Cell) n => deref mem n (mem (s.index + k + 1)))
      (deref_lasting mem e) (deref_lasting mem _) own value⟩
  refine finds_mapM (f := fun k n => do
    let a ← arg mem n c k
    let b ← arg mem n d k
    return (a, b)) (fun k => ?_) fun k listed => ?_
  · intro n m p more found
    obtain ⟨x, first, found⟩ := Option.bind_eq_some_iff.1 found
    obtain ⟨y, second, found⟩ := Option.bind_eq_some_iff.1 found
    exact Option.bind_eq_some_iff.2 ⟨x, arg_lasting mem c k n m x more first,
      Option.bind_eq_some_iff.2 ⟨y, arg_lasting mem d k n m y more second, found⟩⟩
  · obtain ⟨term, term'⟩ := terms k (List.mem_range.1 listed)
    obtain ⟨x, n, first⟩ := finds isStr term
    obtain ⟨y, m, second⟩ := finds isStr' term'
    refine ⟨(x, y), max n m, Option.bind_eq_some_iff.2 ⟨x, ?_, ?_⟩⟩
    · exact arg_lasting mem c k n _ x (le_max_left n m) first
    · have second := arg_lasting mem d k m _ y (le_max_right n m) second
      exact Option.bind_eq_some_iff.2 ⟨y, second, rfl⟩

theorem Unifying.turn_some (un : Unifying R start a b base u done) (wf : WellFormed R start size)
    {stack : List (Cell × Cell)} (popped : u.stack = (s, t) :: stack) (plain : Unforwarded u) :
    ∃ n out, Unify.turn n { u with stack := stack } s t = some out := by
  have wf' := un.change.wellFormed wf
  have here : (s, t) ∈ u.stack := by
    rw [popped]
    exact List.mem_cons_self
  obtain ⟨isTermS, isTermT⟩ := un.stack _ here
  obtain ⟨_, derefs, _⟩ := isTermS.derefs wf'
  obtain ⟨_, derefs', _⟩ := isTermT.derefs wf'
  obtain ⟨c, found⟩ := derefs_above un.forwarded derefs
  obtain ⟨d, found'⟩ := derefs_above un.forwarded derefs'
  have notFwd := plain.top s t stack popped c (.inl found)
  have notFwd' := plain.top s t stack popped d (.inr found')
  have isTerm := (derefs_below un.forwarded found notFwd).isTerm wf' isTermS
  have isTerm' := (derefs_below un.forwarded found' notFwd').isTerm wf' isTermT
  obtain ⟨n, atS⟩ := found
  obtain ⟨m, atT⟩ := found'
  -- the fuel for two structures, on top of that for the two values
  have structures : ∃ k, c.tag = .STR → d.tag = .STR → ∃ i j, forward u.mem k c.index = some i ∧
      forward u.mem k d.index = some j ∧ (u.mem i).tag = .CON ∧ (i ≠ j → u.mem i = u.mem j →
        ∃ pairs, argPairs (Function.update u.mem i (Cell.make .FWD j)) k c d (u.mem i).arity =
          some pairs) := by
    by_cases both : c.tag = .STR ∧ d.tag = .STR
    · obtain ⟨isStr, isStr'⟩ := both
      have functor := isTerm.str isStr
      have functor' := isTerm'.str isStr'
      obtain ⟨i, functorI, leads, sameI⟩ := un.links _ functor
      obtain ⟨j, functorJ, leads', sameJ⟩ := un.links _ functor'
      have atI := un.forwarded.agrees leads.tag
      have atJ := un.forwarded.agrees leads'.tag
      have isCon : (u.mem i).tag = .CON := by
        rw [atI]
        exact (wf'.functors i functorI).2.1
      obtain ⟨k, first⟩ := leads
      obtain ⟨l, second⟩ := leads'
      have first := forward_lasting c.index k (max k l) i (le_max_left k l) first
      have second := forward_lasting d.index l (max k l) j (le_max_right k l) second
      by_cases merges : i ≠ j ∧ u.mem i = u.mem j
      · obtain ⟨apart, same⟩ := merges
        have inside := forward_lt second d.value_lt
        have forwarded := Forwarded.cons un.forwarded isCon apart same inside
        obtain ⟨pairs, o, pushed⟩ := argPairs_some wf' forwarded isStr
          isStr' (u.mem i).arity fun k small => by
            have arity : (u.mem i).arity = (base c.index).arity := by rw [atI, sameI.functor]
            have arity' : (u.mem i).arity = (base d.index).arity := by
              rw [same, atJ, sameJ.functor]
            exact ⟨(wf'.functors _ functor).2.2 k (by rwa [← arity]),
              (wf'.functors _ functor').2.2 k (by rwa [← arity'])⟩
        refine ⟨max (max k l) o, fun _ _ => ⟨i, j, ?_, ?_, isCon, fun _ _ => ⟨pairs, ?_⟩⟩⟩
        · exact forward_lasting c.index _ _ i (le_max_left _ o) first
        · exact forward_lasting d.index _ _ j (le_max_left _ o) second
        · exact argPairs_lasting c d _ o _ pairs (le_max_right _ o) pushed
      · refine ⟨max k l, fun _ _ => ⟨i, j, first, second, isCon, fun apart same => ?_⟩⟩
        exact absurd ⟨apart, same⟩ merges
    · exact ⟨0, fun isStr isStr' => absurd ⟨isStr, isStr'⟩ both⟩
  obtain ⟨k, structures⟩ := structures
  have first : deref u.mem (max (max n m) k) s = some c :=
    deref_lasting u.mem s n _ c ((le_max_left n m).trans (le_max_left _ k)) atS
  have second : deref u.mem (max (max n m) k) t = some d :=
    deref_lasting u.mem t m _ d ((le_max_right n m).trans (le_max_left _ k)) atT
  refine ⟨max (max n m) k, Unify.turn_some first second fun isStr isStr' => ?_⟩
  obtain ⟨i, j, leads, leads', isCon, pushed⟩ := structures isStr isStr'
  refine ⟨i, j, ?_, ?_, isCon, fun apart same => ?_⟩
  · exact forward_lasting c.index k _ i (le_max_right _ k) leads
  · exact forward_lasting d.index k _ j (le_max_right _ k) leads'
  · obtain ⟨pairs, pushed⟩ := pushed apart same
    exact ⟨pairs, argPairs_lasting c d _ k _ pairs (le_max_right _ k) pushed⟩

end Unifying


end Epilog.Common.Unification
