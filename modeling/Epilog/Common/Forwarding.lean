/- Module: Epilog/Common/Forwarding
   source: src/src/common/term_env.cpp (unify, unify_helper, restore_cells_after_unify)
   digest: What lies below the forwarding cells, and that unification only binds variables. -/

import Epilog.Common.Unify

set_option autoImplicit false

namespace Epilog.Common.Forwarding

open Epilog.Common.Term Epilog.Common.TermWalk Epilog.Common.Unify Epilog.Lib.Fuel

section Binds

/-- The cell at `x` is an unbound variable, watched or not. -/
def IsVar (mem : ℕ → Cell) (x : ℕ) : Prop := (mem x).tag.isRef = true ∧ (mem x).index = x

/-- The heap has changed at unbound variables only. -/
def Binds (mem mem' : ℕ → Cell) : Prop := ∀ a, mem' a = mem a ∨ IsVar mem a

variable {mem mem' mem'' : ℕ → Cell}

theorem Binds.refl (mem : ℕ → Cell) : Binds mem mem := fun _ => .inl rfl

theorem Binds.trans (first : Binds mem mem') (later : Binds mem' mem'') : Binds mem mem'' := by
  intro a
  rcases first a with same | isVar
  · rcases later a with same' | isVar'
    · exact .inl (same'.trans same)
    · refine .inr ?_
      rwa [IsVar, same] at isVar'
  · exact .inr isVar

theorem Binds.update {x : ℕ} (isVar : IsVar mem x) (c : Cell) :
    Binds mem (Function.update mem x c) := by
  intro a
  by_cases here : a = x
  · exact .inr (here ▸ isVar)
  · exact .inl (Function.update_of_ne here c mem)

theorem Binds.kept (binds : Binds mem mem') {a : ℕ} (notRef : (mem a).tag.isRef = false) :
    mem' a = mem a := by
  rcases binds a with same | isVar
  · exact same
  · rw [isVar.1] at notRef
    exact nomatch notRef

theorem isVar_of_deref {n : ℕ} {c d : Cell} (value : deref mem n c = some d)
    (isRef : d.tag.isRef = true) : IsVar mem d.index ∧ mem d.index = d := by
  have self := deref_end value isRef
  exact ⟨by rw [IsVar, self]; exact ⟨isRef, rfl⟩, self⟩

end Binds

section Forwarded

/-- `mem` is `base` but for the forwarding cells at the addresses of the trail, the last one in
front. Each of them leads to another constant that was the same and not forwarded then. -/
inductive Forwarded (base : ℕ → Cell) : (ℕ → Cell) → List ℕ → Prop
  | none : Forwarded base base []
  | cons {mem : ℕ → Cell} {trail : List ℕ} {i j : ℕ} (before : Forwarded base mem trail)
      (isCon : (mem i).tag = .CON) (apart : i ≠ j) (same : mem i = mem j) (small : j < 2 ^ 61) :
      Forwarded base (Function.update mem i (Cell.make .FWD j)) (i :: trail)

variable {base mem : ℕ → Cell} {trail : List ℕ}

theorem Forwarded.restored (forwarded : Forwarded base mem trail) : restore mem trail = base := by
  induction forwarded with
  | none => rfl
  | @cons mem trail i j _ isCon apart same small ih =>
    have link : (Function.update mem i (Cell.make .FWD j) i).index = j := by
      rw [Function.update_self]
      exact Cell.value_make_of_lt .FWD small
    rw [restore, link, Function.update_of_ne (Ne.symm apart), ← same,
      Function.update_idem, Function.update_eq_self]
    exact ih

theorem Forwarded.agrees (forwarded : Forwarded base mem trail) {a : ℕ}
    (notFwd : (mem a).tag ≠ .FWD) : mem a = base a := by
  induction forwarded with
  | none => rfl
  | @cons mem trail i j _ _ _ _ _ ih =>
    by_cases here : a = i
    · rw [here, Function.update_self] at notFwd
      exact absurd (Cell.tag_make .FWD j) notFwd
    · rw [Function.update_of_ne here] at notFwd ⊢
      exact ih notFwd

theorem ref_not_fwd {c : Cell} (isRef : c.tag.isRef = true) : c.tag ≠ .FWD := by
  intro isFwd
  rw [isFwd] at isRef
  exact nomatch isRef

theorem Forwarded.bind (forwarded : Forwarded base mem trail) {x : ℕ}
    (isRef : (mem x).tag.isRef = true) (c : Cell) :
    Forwarded (Function.update base x c) (Function.update mem x c) trail := by
  induction forwarded with
  | none => exact .none
  | @cons mem trail i j _ isCon apart same small ih =>
    have other : x ≠ i := by
      rintro rfl
      rw [Function.update_self, Cell.tag_make] at isRef
      exact nomatch isRef
    rw [Function.update_of_ne other] at isRef
    have other' : x ≠ j := by
      rintro rfl
      rw [← same, isCon] at isRef
      exact nomatch isRef
    rw [Function.update_comm (Ne.symm other)]
    have atI : Function.update mem x c i = mem i := Function.update_of_ne (Ne.symm other) c mem
    have atJ : Function.update mem x c j = mem j := Function.update_of_ne (Ne.symm other') c mem
    apply Forwarded.cons (ih isRef)
    · rw [atI]
      exact isCon
    · exact apart
    · rw [atI, atJ]
      exact same
    · exact small

theorem forward_lt {n i j : ℕ} (leads : forward mem n i = some j) (small : i < 2 ^ 61) :
    j < 2 ^ 61 := by
  induction n generalizing i with
  | zero => exact nomatch leads
  | succ n ih =>
    unfold forward at leads
    split_ifs at leads
    · exact ih leads (mem i).value_lt
    · exact Option.some.inj leads ▸ small

end Forwarded

section OnlyBinds

/-- The heap below the forwarding cells has changed at unbound variables only, and those have been
put on the trail that were. -/
structure Bound (start : ℕ → Cell) (trail : List ℕ) (u : Unifier) (base : ℕ → Cell) : Prop where
  forwarded : Forwarded base u.mem u.tempTrail
  binds : Binds start base
  trail : ∃ new, u.trail = new ++ trail ∧ ∀ x ∈ new, IsVar start x

variable {start base : ℕ → Cell} {trail : List ℕ} {u u' : Unifier}

theorem isVar_of_binds {mem mem' : ℕ → Cell} (binds : Binds mem mem') {x : ℕ}
    (isVar : IsVar mem' x) : IsVar mem x := by
  rcases binds x with same | before
  · rwa [IsVar, same] at isVar
  · exact before

private theorem Bound.isVar (bound : Bound start trail u base) {x : ℕ} (isVar : IsVar u.mem x) :
    IsVar base x := by
  have same := bound.forwarded.agrees (ref_not_fwd isVar.1)
  rwa [IsVar, same] at isVar

theorem Bound.watch (bound : Bound start trail u base) {x : ℕ} (isVar : IsVar u.mem x) :
    ∃ base', Bound start trail (u.watch x) base' ∧ Binds base base' := by
  unfold Unifier.watch
  split_ifs
  · have change := Binds.update (bound.isVar isVar) (Cell.make .RFW (u.mem x).index)
    exact ⟨_, ⟨bound.forwarded.bind isVar.1 _, bound.binds.trans change, bound.trail⟩, change⟩
  · exact ⟨base, bound, .refl base⟩

theorem Bound.bind (bound : Bound start trail u base) {r : Cell} (isVar : IsVar u.mem r.index)
    (v : Cell) : Bound start trail (u.bind r v) (Function.update base r.index v) := by
  have change := Binds.update (bound.isVar isVar) v
  refine ⟨bound.forwarded.bind isVar.1 v, bound.binds.trans change, ?_⟩
  obtain ⟨new, split, vars⟩ := bound.trail
  dsimp only [Unifier.bind]
  split_ifs
  · refine ⟨r.index :: new, by rw [split, List.cons_append], ?_⟩
    intro x mem
    rcases List.mem_cons.1 mem with rfl | mem
    · exact isVar_of_binds bound.binds (bound.isVar isVar)
    · exact vars x mem
  · exact ⟨new, split, vars⟩

theorem Bound.merge (bound : Bound start trail u base) {n i j k l : ℕ} {pairs : List (Cell × Cell)}
    (isCon : (u.mem i).tag = .CON) (apart : i ≠ j) (same : u.mem i = u.mem j)
    (leads : forward u.mem n k = some l) (small : k < 2 ^ 61) (here : l = j) :
    Bound start trail (u.merge i j pairs) base :=
  ⟨.cons bound.forwarded isCon apart same (here ▸ forward_lt leads small), bound.binds,
    bound.trail⟩

theorem isVar_watch {x y : ℕ} (isVar : IsVar u.mem x) : IsVar (u.watch y).mem x := by
  unfold Unifier.watch
  split_ifs
  · by_cases here : x = y
    · subst here
      refine ⟨?_, ?_⟩
      · dsimp only
        rw [Function.update_self, Cell.tag_make]
        rfl
      · dsimp only
        rw [Function.update_self, isVar.2]
        have small := (u.mem x).value_lt
        rw [← isVar.2]
        exact Cell.value_make_of_lt .RFW small
    · refine ⟨?_, ?_⟩ <;> dsimp only
      · rw [Function.update_of_ne here]
        exact isVar.1
      · rw [Function.update_of_ne here]
        exact isVar.2
  · exact isVar

theorem Bound.turn (bound : Bound start trail u base) {n : ℕ} {a b : Cell} {more : Bool}
    (ran : turn n u a b = some (more, u')) : ∃ base', Bound start trail u' base' ∧ Binds base base' := by
  obtain ⟨a', b', atA, atB, turned⟩ := turn_turns ran
  cases turned with
  | bind r v u₁ pair watched =>
    obtain ⟨which, isRef, apart⟩ := boundPair_spec pair
    have isVar : IsVar u.mem r.index := by
      rcases which with ⟨rfl, rfl⟩ | ⟨rfl, rfl⟩
      · exact (isVar_of_deref atA isRef).1
      · exact (isVar_of_deref atB isRef).1
    rcases watched with rfl | ⟨_, isRef', rfl⟩
    · exact ⟨_, bound.bind isVar v, Binds.update (bound.isVar isVar) v⟩
    · have isVar' : IsVar u.mem v.index := by
        rcases which with ⟨rfl, rfl⟩ | ⟨rfl, rfl⟩
        · exact (isVar_of_deref atB isRef').1
        · exact (isVar_of_deref atA isRef').1
      obtain ⟨base', watched, binds⟩ := bound.watch isVar'
      have still := isVar_watch (y := v.index) isVar
      exact ⟨_, watched.bind still v, binds.trans (Binds.update (watched.isVar still) v)⟩
  | merge n i j pairs isStr isStr' leads leads' isCon apart same pushed =>
    exact ⟨base, bound.merge isCon apart same leads' b'.value_lt rfl, .refl base⟩
  | equal | clash | big | linked | functors | other => exact ⟨base, bound, .refl base⟩

theorem Bound.loop (bound : Bound start trail u base) {n : ℕ} {same : Bool}
    (ran : unifyLoop n u = some (same, u')) :
    ∃ base', Bound start trail u' base' ∧ u'.mem = base' ∧ Binds base base' := by
  induction n generalizing u base with
  | zero => exact nomatch ran
  | succ n ih =>
    unfold unifyLoop at ran
    split at ran
    case h_1 =>
      obtain ⟨_, rfl⟩ := Prod.mk.inj (Option.some.inj ran)
      exact ⟨base, ⟨bound.forwarded.restored ▸ .none, bound.binds, bound.trail⟩,
        bound.forwarded.restored, .refl base⟩
    case h_2 a b stack _ =>
      obtain ⟨⟨more, u₁⟩, turned, ran⟩ := Option.bind_eq_some_iff.1 ran
      have popped : Bound start trail { u with stack := stack } base :=
        ⟨bound.forwarded, bound.binds, bound.trail⟩
      obtain ⟨base₁, bound₁, binds⟩ := popped.turn turned
      dsimp only at ran
      split_ifs at ran
      · obtain ⟨base', bound', done, binds'⟩ := ih bound₁ ran
        exact ⟨base', bound', done, binds.trans binds'⟩
      · obtain ⟨_, rfl⟩ := Prod.mk.inj (Option.some.inj ran)
        exact ⟨base₁, ⟨bound₁.forwarded.restored ▸ .none, bound₁.binds, bound₁.trail⟩,
          bound₁.forwarded.restored, binds⟩

theorem binds_unwindTrail {mem : ℕ → Cell} (binds : Binds start mem) {trail : List ℕ}
    (vars : ∀ x ∈ trail, IsVar start x) : Binds start (unwindTrail mem trail) := by
  induction trail with
  | nil => exact binds
  | cons x trail ih =>
    intro a
    unfold unwindTrail
    rw [List.foldr_cons]
    by_cases here : a = x
    · exact .inr (here ▸ vars x List.mem_cons_self)
    · rw [Function.update_of_ne here]
      exact ih (fun y mem => vars y (List.mem_cons_of_mem x mem)) a

theorem unify_binds {n : ℕ} {m m' : Machine} {a b : Cell} {same : Bool}
    (ran : m.unify n a b = some (same, m')) : Binds m.mem m'.mem := by
  obtain ⟨⟨more, u⟩, looped, ran⟩ := Option.bind_eq_some_iff.1 ran
  have bound : Bound m.mem m.trail (m.helper a b) m.mem :=
    ⟨.none, .refl m.mem, [], rfl, nofun⟩
  obtain ⟨base, bound', done, binds⟩ := bound.loop looped
  obtain ⟨new, trail, vars⟩ := bound'.trail
  dsimp only at ran
  split_ifs at ran
  · obtain ⟨_, rfl⟩ := Prod.mk.inj (Option.some.inj ran)
    change Binds m.mem u.mem
    rw [done]
    exact bound'.binds
  · obtain ⟨_, rfl⟩ := Prod.mk.inj (Option.some.inj ran)
    have part : u.trail.take (u.trail.length - m.trail.length) = new := by
      rw [trail, List.length_append, Nat.add_sub_cancel, List.take_left' rfl]
    change Binds m.mem (unwindTrail u.mem (u.trail.take (u.trail.length - m.trail.length)))
    rw [done, part]
    exact binds_unwindTrail bound'.binds vars

end OnlyBinds

end Epilog.Common.Forwarding
