/- Module: Epilog/Lib/RationalTree
   source: none (library)
   digest: The possibly infinite trees that the nodes of a graph stand for, and when they agree. -/

import Mathlib.Logic.Relation
import Mathlib.Data.List.Forall2

set_option autoImplicit false

namespace Epilog.Lib.RationalTree

/-- A tree, cyclic ones unrolled: the label at each path, where there is one. -/
abbrev PathTree (L : Type) := List ℕ → Option L

section Denotation

variable {V L N : Type}

/-- What a node is: a variable, or a label above some nodes. -/
abbrev View (V L N : Type) := N → V ⊕ (L × List N)

variable (view : View V L N) (σ : V → PathTree L)

/-- The tree of a node when the variables stand for trees. -/
def den (n : N) (path : List ℕ) : Option L :=
  match path with
  | [] =>
    match view n with
    | .inl x => σ x []
    | .inr (l, _) => some l
  | k :: path =>
    match view n with
    | .inl x => σ x (k :: path)
    | .inr (_, below) =>
      match below[k]? with
      | none => none
      | some m => den m path

variable {view σ}

theorem den_var {n : N} {x : V} (isVar : view n = .inl x) : den view σ n = σ x := by
  ext1 path
  cases path <;> simp only [den, isVar]

theorem den_nil {n : N} {l : L} {below : List N} (isNode : view n = .inr (l, below)) :
    den view σ n [] = some l := by
  simp only [den, isNode]

theorem den_cons {n : N} {l : L} {below : List N} (isNode : view n = .inr (l, below)) (k : ℕ)
    (path : List ℕ) : den view σ n (k :: path) = below[k]?.bind fun m => den view σ m path := by
  simp only [den, isNode]
  cases below[k]? <;> rfl

theorem den_of_view {n m : N} (same : view n = view m) : den view σ n = den view σ m := by
  cases shape : view n with
  | inl x => rw [den_var shape, den_var (same ▸ shape)]
  | inr node =>
    obtain ⟨l, below⟩ := node
    have shape' : view m = .inr (l, below) := same ▸ shape
    ext1 path
    cases path with
    | nil => rw [den_nil shape, den_nil shape']
    | cons k path => rw [den_cons shape, den_cons shape']

/-- Equal trees have equal labels and equal subtrees. -/
theorem den_inj {n m : N} {l l' : L} {below below' : List N} (equal : den view σ n = den view σ m)
    (isNode : view n = .inr (l, below)) (isNode' : view m = .inr (l', below')) :
    l = l' ∧ ∀ (k : ℕ) c c', below[k]? = some c → below'[k]? = some c' →
      den view σ c = den view σ c' := by
  constructor
  · have top := congrFun equal []
    rw [den_nil isNode, den_nil isNode'] at top
    exact Option.some.inj top
  · intro k c c' found found'
    ext1 path
    have sub := congrFun equal (k :: path)
    rwa [den_cons isNode, den_cons isNode', found, found'] at sub

/-- Two views of the same shape: the same variable, or the same label above related nodes. -/
inductive Alike (R : N → N → Prop) : V ⊕ (L × List N) → V ⊕ (L × List N) → Prop
  | var (x : V) : Alike R (.inl x) (.inl x)
  | node (l : L) {below below' : List N} (all : List.Forall₂ R below below') :
      Alike R (.inr (l, below)) (.inr (l, below'))

private theorem getElem?_bind {β : Type} {R : N → N → Prop} {f g : N → Option β}
    {below below' : List N} (all : List.Forall₂ R below below')
    (agree : ∀ n m, R n m → f n = g m) (k : ℕ) : below[k]?.bind f = below'[k]?.bind g := by
  induction all generalizing k with
  | nil => rfl
  | cons related _ ih =>
    cases k with
    | zero => exact agree _ _ related
    | succ k => exact ih k

/-- Nodes related by a congruence stand for the same tree, whatever the variables are. -/
theorem den_congr {R : N → N → Prop}
    (closed : ∀ n m, R n m → Alike (Relation.EqvGen R) (view n) (view m)) {n m : N}
    (related : Relation.EqvGen R n m) : den view σ n = den view σ m := by
  ext1 path
  induction path generalizing n m with
  | nil =>
    induction related with
    | rel n m step =>
      generalize shape : view n = v, shape' : view m = w
      have alike := closed n m step
      rw [shape, shape'] at alike
      cases alike with
      | var x => rw [den_var shape, den_var shape']
      | node l all => rw [den_nil shape, den_nil shape']
    | refl n => rfl
    | symm n m _ ih => exact ih.symm
    | trans n m o _ _ ih ih' => exact ih.trans ih'
  | cons k path ihp =>
    induction related with
    | rel n m step =>
      generalize shape : view n = v, shape' : view m = w
      have alike := closed n m step
      rw [shape, shape'] at alike
      cases alike with
      | var x => rw [den_var shape, den_var shape']
      | node l all =>
        rw [den_cons shape, den_cons shape']
        exact getElem?_bind all (fun _ _ => ihp) k
    | refl n => rfl
    | symm n m _ ih => exact ih.symm
    | trans n m o _ _ ih ih' => exact ih.trans ih'

/-- Views alike under one relation are alike under a weaker one. -/
theorem Alike.imp {R S : N → N → Prop} (weaker : ∀ n m, R n m → S n m) {v w : V ⊕ (L × List N)}
    (alike : Alike R v w) : Alike S v w := by
  cases alike with
  | var x => exact .var x
  | node l all => exact .node l (all.imp weaker)

/-- A view that changes along a solution leaves the trees of the solution as they are, at the
nodes of a set that is closed in the new view. -/
theorem den_of_solved {view' : View V L N} (nodes : Set N)
    (solved : ∀ n ∈ nodes, ∃ m, den view σ m = den view σ n ∧
      Alike (fun c c' => den view σ c = den view σ c' ∧ c' ∈ nodes) (view m) (view' n))
    {n : N} (member : n ∈ nodes) : den view' σ n = den view σ n := by
  ext1 path
  induction path generalizing n with
  | nil =>
    obtain ⟨m, same, alike⟩ := solved n member
    rw [← same]
    generalize shape : view m = v, shape' : view' n = w at alike
    cases alike with
    | var x => rw [den_var shape, den_var shape']
    | node l all => rw [den_nil shape, den_nil shape']
  | cons k path ih =>
    obtain ⟨m, same, alike⟩ := solved n member
    rw [← same]
    generalize shape : view m = v, shape' : view' n = w at alike
    cases alike with
    | var x => rw [den_var shape, den_var shape']
    | node l all =>
      rw [den_cons shape, den_cons shape']
      refine (getElem?_bind all (fun c c' equal => ?_) k).symm
      rw [equal.1, ih equal.2]

/-- Where variables stand for what they become in another view, the trees are those of that view. -/
theorem den_of_instance {view' : View V L N} {τ : V → PathTree L} (nodes : Set N)
    (each : ∀ n ∈ nodes, (∃ x, view n = .inl x ∧ σ x = den view' τ n) ∨
      ∃ l below below', view n = .inr (l, below) ∧ view' n = .inr (l, below') ∧
        List.Forall₂ (fun c c' => c ∈ nodes ∧ den view' τ c = den view' τ c') below below')
    {n : N} (member : n ∈ nodes) : den view σ n = den view' τ n := by
  ext1 path
  induction path generalizing n with
  | nil =>
    rcases each n member with ⟨x, isVar, stands⟩ | ⟨l, _, _, shape, shape', _⟩
    · rw [den_var isVar, stands]
    · rw [den_nil shape, den_nil shape']
  | cons k path ih =>
    rcases each n member with ⟨x, isVar, stands⟩ | ⟨l, _, _, shape, shape', all⟩
    · rw [den_var isVar, stands]
    · rw [den_cons shape, den_cons shape']
      exact getElem?_bind all (fun c c' both => (ih both.1).trans (congrFun both.2 path)) k

end Denotation

end Epilog.Lib.RationalTree
