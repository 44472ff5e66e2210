/- Module: Epilog/Interp/Backtracking
   source: src/src/common/term_env.cpp (unify), src/src/common/term_env.hpp (unwind_trail, bind),
     src/src/interp/interpreter_base.hpp (can_unify, unwind_frozen_closures)
   digest: What unwinding the trail restores after a failed unification and after a choice point. -/

import Epilog.Common.Forwarding
import Epilog.Lib.FiniteMap

set_option autoImplicit false

namespace Epilog.Interp.Backtracking

open Epilog.Common.Term Epilog.Common.TermWalk Epilog.Common.Unify Epilog.Common.Forwarding
  Epilog.Lib.Fuel Epilog.Lib.FiniteMap

section Trail

theorem unwindTrail_apply (mem : ℕ → Cell) (trail : List ℕ) (a : ℕ) :
    unwindTrail mem trail a = if a ∈ trail then Cell.make .REF a else mem a := by
  induction trail with
  | nil => rfl
  | cons x trail ih =>
    unfold unwindTrail at ih ⊢
    rw [List.foldr_cons, Function.update_apply, ih]
    by_cases here : a = x
    · simp [here]
    · simp [here]

theorem getLast?_append {part : List ℕ} {last : ℕ} (found : part.getLast? = some last) :
    part = part.dropLast ++ [last] := by
  have nonempty : part ≠ [] := by
    rintro rfl
    exact nomatch found
  rw [List.getLast?_eq_some_getLast nonempty] at found
  rw [← Option.some.inj found, List.dropLast_append_getLast]

theorem mem_tidy {hb n : ℕ} {part : List ℕ} (enough : part.length ≤ n) (x : ℕ) (old : x < hb) :
    x ∈ tidy hb n part ↔ x ∈ part := by
  induction n generalizing part with
  | zero => rw [tidy]
  | succ n ih =>
    cases part with
    | nil => exact Iff.rfl
    | cons addr part =>
      rw [List.length_cons] at enough
      unfold tidy
      split_ifs with kept
      · rw [List.mem_cons, List.mem_cons, ih (by omega)]
      · have other : x ≠ addr := fun same => kept (same ▸ old)
        split
        case h_1 empty =>
          rw [List.getLast?_eq_none_iff.1 empty, List.mem_singleton]
          exact ⟨nofun, fun same => absurd same other⟩
        case h_2 last found =>
          have split := getLast?_append found
          have shorter : (last :: part.dropLast).length ≤ n := by
            rw [List.length_cons, List.length_dropLast]
            have : part.length ≠ 0 := by
              rw [split]
              simp
            omega
          rw [ih shorter, List.mem_cons, List.mem_cons, or_iff_right other]
          conv_rhs => rw [split, List.mem_append, List.mem_singleton]
          exact or_comm

theorem tidy_subset {hb n : ℕ} {part : List ℕ} {x : ℕ} (mem : x ∈ tidy hb n part) : x ∈ part := by
  induction n generalizing part with
  | zero => rwa [tidy] at mem
  | succ n ih =>
    cases part with
    | nil => exact mem
    | cons addr part =>
      unfold tidy at mem
      split_ifs at mem
      · rcases List.mem_cons.1 mem with rfl | mem
        · exact List.mem_cons_self
        · exact List.mem_cons_of_mem addr (ih mem)
      · split at mem
        · exact nomatch mem
        case h_2 last found =>
          apply List.mem_cons_of_mem addr
          have mem := ih mem
          rw [getLast?_append found, List.mem_append, List.mem_singleton]
          exact (List.mem_cons.1 mem).symm

theorem tidy_eq_self {hb n : ℕ} {part : List ℕ} (old : ∀ x ∈ part, x < hb) :
    tidy hb n part = part := by
  induction n generalizing part with
  | zero => rw [tidy]
  | succ n ih =>
    cases part with
    | nil => rfl
    | cons addr part =>
      unfold tidy
      rw [if_pos (old addr List.mem_cons_self),
        ih fun x mem => old x (List.mem_cons_of_mem addr mem)]

end Trail

section Bindings

/-- The next turn binds the variable `r` to `v`. -/
def Binding (u : Unifier) (r v : Cell) : Prop :=
  ∃ a b stack a' b', u.stack = (a, b) :: stack ∧ Finds (fun n => deref u.mem n a) a' ∧
    Finds (fun n => deref u.mem n b) b' ∧ boundPair a' b' = some (r, v)

variable {u u' w : Unifier} {r v : Cell}

theorem Binding.isVar (binding : Binding u r v) :
    IsVar u.mem r.index ∧ u.mem r.index = r ∧ r.tag.isRef = true := by
  obtain ⟨a, b, stack, a', b', _, ⟨n, atA⟩, ⟨m, atB⟩, pair⟩ := binding
  obtain ⟨which, isRef, _⟩ := boundPair_spec pair
  rcases which with ⟨rfl, rfl⟩ | ⟨rfl, rfl⟩
  · exact ⟨(isVar_of_deref atA isRef).1, (isVar_of_deref atA isRef).2, isRef⟩
  · exact ⟨(isVar_of_deref atB isRef).1, (isVar_of_deref atB isRef).2, isRef⟩

theorem Binding.value (binding : Binding u r v) (isRef : v.tag.isRef = true) :
    IsVar u.mem v.index ∧ v.index ≠ r.index := by
  obtain ⟨_, own, _⟩ := binding.isVar
  obtain ⟨a, b, stack, a', b', _, ⟨n, atA⟩, ⟨m, atB⟩, pair⟩ := binding
  obtain ⟨which, _, apart⟩ := boundPair_spec pair
  have other : u.mem v.index = v → v.index ≠ r.index := by
    intro own' same
    rw [same, own] at own'
    exact apart own'
  rcases which with ⟨rfl, rfl⟩ | ⟨rfl, rfl⟩
  · exact ⟨(isVar_of_deref atB isRef).1, other (isVar_of_deref atB isRef).2⟩
  · exact ⟨(isVar_of_deref atA isRef).1, other (isVar_of_deref atA isRef).2⟩

theorem Binding.unique {r' v' : Cell} (binding : Binding u r v) (binding' : Binding u r' v') :
    r = r' ∧ v = v' := by
  obtain ⟨a, b, stack, a', b', popped, atA, atB, pair⟩ := binding
  obtain ⟨a₁, b₁, stack₁, a₂, b₂, popped', atA', atB', pair'⟩ := binding'
  rw [popped] at popped'
  obtain ⟨head, rfl⟩ := List.cons.inj popped'
  obtain ⟨rfl, rfl⟩ := Prod.mk.inj head
  rw [← Finds.unique (deref_lasting u.mem a) atA atA',
    ← Finds.unique (deref_lasting u.mem b) atB atB', pair] at pair'
  exact Prod.mk.inj (Option.some.inj pair')

theorem turn_binding {n : ℕ} {a b : Cell} {stack : List (Cell × Cell)} {more : Bool}
    (popped : u.stack = (a, b) :: stack)
    (ran : turn n { u with stack := stack } a b = some (more, u')) :
    (∃ r v u₁, Binding u r v ∧ more = true ∧ u' = u₁.bind r v ∧
      (u₁ = { u with stack := stack } ∨ r.tag = .RFW ∧ v.tag.isRef = true ∧
        u₁ = Unifier.watch { u with stack := stack } v.index)) ∨
    (¬∃ r v, Binding u r v) ∧ (u' = { u with stack := stack } ∨
      more = true ∧ ∃ n i j k pairs, forward u.mem n k = some j ∧ k < 2 ^ 61 ∧
        (u.mem i).tag = .CON ∧ i ≠ j ∧ u.mem i = u.mem j ∧
        u' = Unifier.merge { u with stack := stack } i j pairs) := by
  obtain ⟨a', b', atA, atB, turned⟩ := turn_turns ran
  have idle (nothing : boundPair a' b' = none) : ¬∃ r v, Binding u r v := by
    rintro ⟨r, v, a₁, b₁, stack₁, a₂, b₂, popped₁, atA₁, atB₁, pair⟩
    rw [popped] at popped₁
    obtain ⟨head, rfl⟩ := List.cons.inj popped₁
    obtain ⟨rfl, rfl⟩ := Prod.mk.inj head
    rw [← Finds.unique (deref_lasting u.mem a) ⟨n, atA⟩ atA₁,
      ← Finds.unique (deref_lasting u.mem b) ⟨n, atB⟩ atB₁, nothing] at pair
    exact nomatch pair
  have plain (tag : Tag) (isA : a'.tag = tag) (isB : b'.tag = tag) (notRef : tag.isRef = false) :
      ¬∃ r v, Binding u r v :=
    idle (boundPair_none (isA ▸ notRef) (isB ▸ notRef))
  cases turned with
  | bind r v u₁ pair watched =>
    exact .inl ⟨r, v, u₁, ⟨a, b, stack, a', b', popped, ⟨n, atA⟩, ⟨n, atB⟩, pair⟩, rfl, rfl,
      watched⟩
  | equal same => exact .inr ⟨idle (by rw [same, boundPair, if_pos rfl]), .inl rfl⟩
  | clash apart notRef notRef' reason =>
    exact .inr ⟨idle (boundPair_none notRef notRef'), .inl rfl⟩
  | big isBig isBig' => exact .inr ⟨plain .BIG isBig isBig' rfl, .inl rfl⟩
  | linked m i isStr isStr' => exact .inr ⟨plain .STR isStr isStr' rfl, .inl rfl⟩
  | functors m i j isStr isStr' => exact .inr ⟨plain .STR isStr isStr' rfl, .inl rfl⟩
  | merge m i j pairs isStr isStr' leads leads' isCon apart same pushed =>
    exact .inr ⟨plain .STR isStr isStr' rfl,
      .inr ⟨rfl, m, i, j, b'.index, pairs, leads', b'.value_lt, isCon, apart, same, rfl⟩⟩
  | other apart sameTag rest =>
    refine .inr ⟨?_, .inl rfl⟩
    rcases rest with isDat | isFwd
    · exact plain .DAT isDat (sameTag ▸ isDat) rfl
    · exact plain .FWD isFwd (sameTag ▸ isFwd) rfl

theorem watch_frame (u : Unifier) (x : ℕ) : (u.watch x).trail = u.trail ∧ (u.watch x).hb = u.hb ∧
    (u.watch x).watched = u.watched := by
  unfold Unifier.watch
  split_ifs
  · exact ⟨rfl, rfl, rfl⟩
  · exact ⟨rfl, rfl, rfl⟩

theorem loop_bindings {n : ℕ} {same : Bool} {base : ℕ → Cell}
    (forwarded : Forwarded base u.mem u.tempTrail)
    (ran : unifyLoop n u = some (same, u')) :
    ∃ new, u'.trail = new ++ u.trail ∧
      (∀ x, x ∈ new ↔ x < u.hb ∧ ∃ w r v, Reached u w ∧ Binding w r v ∧ r.index = x) ∧
      ∀ w r v, Reached u w → Binding w r v → u'.mem r.index = v := by
  induction n generalizing u base with
  | zero => exact nomatch ran
  | succ n ih =>
    unfold unifyLoop at ran
    split at ran
    case h_1 empty =>
      obtain ⟨_, rfl⟩ := Prod.mk.inj (Option.some.inj ran)
      have idle : ∀ w r v, Reached u w → Binding w r v → False := by
        intro w r v later binding
        rcases later.uncons with rfl | ⟨_, _, _, _, _, popped, _⟩
        · obtain ⟨_, _, _, _, _, popped, _⟩ := binding
          rw [empty] at popped
          exact nomatch popped
        · rw [empty] at popped
          exact nomatch popped
      refine ⟨[], rfl, fun x => ⟨nofun, ?_⟩, fun w r v later binding => ?_⟩
      · rintro ⟨_, w, r, v, later, binding, _⟩
        exact absurd binding (idle w r v later)
      · exact absurd binding (idle w r v later)
    case h_2 a b stack popped =>
      obtain ⟨⟨more, u₁⟩, turned, ran⟩ := Option.bind_eq_some_iff.1 ran
      dsimp only at ran
      -- the states after this one are the start, or come after the turn
      have split : ∀ w, Reached u w → w = u ∨ more = true ∧ Reached u₁ w := by
        intro w later
        rcases later.uncons with rfl | ⟨n', a', b', stack', u₂, popped', ran', later⟩
        · exact .inl rfl
        · rw [popped] at popped'
          obtain ⟨head, rfl⟩ := List.cons.inj popped'
          obtain ⟨rfl, rfl⟩ := Prod.mk.inj head
          obtain ⟨rfl, rfl⟩ := Prod.mk.inj
            (Finds.unique (turn_lasting _ a b) ⟨n, turned⟩ ⟨n', ran'⟩)
          exact .inr ⟨rfl, later⟩
      have popped₀ : Bound base u.trail { u with stack := stack } base :=
        ⟨forwarded, .refl base, [], rfl, nofun⟩
      rcases turn_binding popped turned with ⟨r, v, u₂, binding, rfl, rfl, watched⟩ | ⟨idle, rest⟩
      · obtain ⟨isVar, _, _⟩ := binding.isVar
        have ⟨isVar₂, frame, base₂, bound₂⟩ : IsVar u₂.mem r.index ∧
            (u₂.trail = u.trail ∧ u₂.hb = u.hb) ∧ ∃ base₂, Bound base u.trail u₂ base₂ := by
          rcases watched with rfl | ⟨_, isRef, rfl⟩
          · exact ⟨isVar, ⟨rfl, rfl⟩, base, popped₀⟩
          · obtain ⟨base₂, bound₂, _⟩ := popped₀.watch (binding.value isRef).1
            obtain ⟨trail, hb, _⟩ := watch_frame { u with stack := stack } v.index
            exact ⟨isVar_watch isVar, ⟨trail, hb⟩, base₂, bound₂⟩
        have bound₁ := bound₂.bind isVar₂ v
        have fixed : ¬IsVar (Function.update base₂ r.index v) r.index := by
          intro isVar'
          rw [IsVar, Function.update_self] at isVar'
          exact (binding.value isVar'.1).2 isVar'.2
        obtain ⟨base', _, done, binds⟩ := (Bound.loop ⟨bound₁.forwarded, .refl _, [], rfl, nofun⟩
          ran : ∃ base', Bound _ (u₂.bind r v).trail u' base' ∧ _ ∧ _)
        have here : u'.mem r.index = v := by
          rw [done, (binds r.index).resolve_right fixed, Function.update_self]
        obtain ⟨new, trail, listed, values⟩ := ih bound₁.forwarded ran
        have hb : (u₂.bind r v).hb = u.hb := frame.2
        have first : (u₂.bind r v).trail =
            (if r.index < u.hb then [r.index] else []) ++ u.trail := by
          dsimp only [Unifier.bind]
          rw [frame.1, frame.2]
          split_ifs
          · rfl
          · rfl
        refine ⟨new ++ if r.index < u.hb then [r.index] else [], ?_, fun x => ?_, ?_⟩
        · rw [trail, first, List.append_assoc]
        · rw [List.mem_append, listed x, hb]
          constructor
          · rintro (⟨old, w, r', v', later, binding', own⟩ | member)
            · exact ⟨old, w, r', v', .head popped turned later, binding', own⟩
            · split_ifs at member with old
              · rw [List.mem_singleton.1 member]
                exact ⟨old, u, r, v, .refl, binding, rfl⟩
              · exact nomatch member
          · rintro ⟨old, w, r', v', later, binding', own⟩
            rcases split w later with rfl | ⟨_, later⟩
            · obtain ⟨rfl, rfl⟩ := binding.unique binding'
              rw [own, if_pos old]
              exact .inr (List.mem_singleton.2 rfl)
            · exact .inl ⟨old, w, r', v', later, binding', own⟩
        · intro w r' v' later binding'
          rcases split w later with rfl | ⟨_, later⟩
          · obtain ⟨rfl, rfl⟩ := binding.unique binding'
            exact here
          · exact values w r' v' later binding'
      · obtain ⟨base₁, bound₁, _⟩ := popped₀.turn turned
        have frame : u₁.trail = u.trail ∧ u₁.hb = u.hb := by
          rcases rest with rfl | ⟨_, _, _, _, _, _, _, _, _, _, _, rfl⟩
          · exact ⟨rfl, rfl⟩
          · exact ⟨rfl, rfl⟩
        split_ifs at ran with goes
        · obtain ⟨new, trail, listed, values⟩ := ih bound₁.forwarded ran
          refine ⟨new, by rw [trail, frame.1], fun x => ?_, fun w r v later binding => ?_⟩
          · rw [listed x, frame.2]
            refine and_congr_right fun _ => ⟨?_, ?_⟩
            · rintro ⟨w, r, v, later, binding, own⟩
              exact ⟨w, r, v, .head popped (goes ▸ turned) later, binding, own⟩
            · rintro ⟨w, r, v, later, binding, own⟩
              rcases split w later with rfl | ⟨_, later⟩
              · exact absurd ⟨r, v, binding⟩ idle
              · exact ⟨w, r, v, later, binding, own⟩
          · rcases split w later with rfl | ⟨_, later⟩
            · exact absurd ⟨r, v, binding⟩ idle
            · exact values w r v later binding
        · obtain ⟨_, rfl⟩ := Prod.mk.inj (Option.some.inj ran)
          have none : ∀ w r v, Reached u w → ¬Binding w r v := by
            intro w r v later binding
            rcases split w later with rfl | ⟨isTrue, _⟩
            · exact idle ⟨r, v, binding⟩
            · exact goes isTrue
          refine ⟨[], frame.1, fun x => ⟨nofun, ?_⟩, fun w r v later binding => ?_⟩
          · rintro ⟨_, w, r, v, later, binding, _⟩
            exact absurd binding (none w r v later)
          · exact absurd binding (none w r v later)

end Bindings

section Logged

/-- The trail has what it takes to restore the part `P` of the heap. -/
structure Logged (P : ℕ → Prop) (m : Machine) (u : Unifier) (base : ℕ → Cell) (new : List ℕ) :
    Prop where
  forwarded : Forwarded base u.mem u.tempTrail
  binds : Binds m.mem base
  trail : u.trail = new ++ m.trail
  covers : ∀ a, P a → IsVar m.mem a → a < u.hb
  undo : ∀ a, P a → a ∈ new → m.mem a = Cell.make .REF a
  kept : ∀ a, P a → a ∉ new → base a = m.mem a
  bound : ∀ a ∈ new, ¬IsVar base a
  watched : (∀ a, P a) → u.watched = m.watched

variable {P : ℕ → Prop} {m : Machine} {u u' : Unifier} {base : ℕ → Cell} {new : List ℕ}

theorem Logged.isVar (logged : Logged P m u base new) {x : ℕ} (isVar : IsVar u.mem x) :
    IsVar base x := by
  have same := logged.forwarded.agrees (ref_not_fwd isVar.1)
  rwa [IsVar, same] at isVar

theorem make_of_var {r : Cell} {x : ℕ} (isRef : r.tag.isRef = true) (own : r.index = x)
    (unwatched : r.tag ≠ .RFW) : r = Cell.make .REF x := by
  have tag : r.tag = .REF := by
    cases tag : r.tag with
    | REF => rfl
    | RFW => exact absurd tag unwatched
    | INT | BIG | CON | STR | DAT | FWD => rw [tag] at isRef; exact nomatch isRef
  rw [← Cell.make_tag_value r, tag]
  exact congrArg _ own

theorem Logged.watch (logged : Logged P m u base new) {x : ℕ} (isVar : IsVar u.mem x)
    (outside : ¬P x) : ∃ base', Logged P m (u.watch x) base' new ∧ Binds base base' := by
  unfold Unifier.watch
  split_ifs
  · have isVar' := logged.isVar isVar
    have change := Binds.update isVar' (Cell.make .RFW (u.mem x).index)
    refine ⟨_, ⟨logged.forwarded.bind isVar.1 _, logged.binds.trans change, logged.trail,
      logged.covers, logged.undo, fun a inside absent => ?_, fun a member isVar => ?_,
      logged.watched⟩, change⟩
    · have other : a ≠ x := by
        rintro rfl
        exact outside inside
      rw [Function.update_of_ne other]
      exact logged.kept a inside absent
    · by_cases here : a = x
      · exact logged.bound a member (here ▸ isVar')
      · rw [IsVar, Function.update_of_ne here] at isVar
        exact logged.bound a member isVar
  · exact ⟨base, logged, .refl base⟩

theorem Logged.bind (logged : Logged P m u base new) {r v : Cell} (isRef : r.tag.isRef = true)
    (unbound : IsVar u.mem r.index) (own : r.tag ≠ .RFW → u.mem r.index = r)
    (value : v.tag.isRef = true → v.index ≠ r.index)
    (allowed : r.tag = .RFW → ¬P r.index) :
    ∃ new', Logged P m (u.bind r v) (Function.update base r.index v) new' := by
  have isVar := logged.isVar unbound
  have change := Binds.update isVar v
  have others : ∀ a ∈ new, ¬IsVar (Function.update base r.index v) a := by
    intro a member isVar'
    have other : a ≠ r.index := fun here => logged.bound a member (here ▸ isVar)
    rw [IsVar, Function.update_of_ne other] at isVar'
    exact logged.bound a member isVar'
  have fresh : r.index ∉ new := fun member => logged.bound _ member isVar
  have watched : (∀ a, P a) → (u.bind r v).watched = m.watched := by
    intro all
    have unwatched : r.tag ≠ .RFW := fun isRfw => allowed isRfw (all _)
    dsimp only [Unifier.bind]
    rw [if_neg unwatched]
    exact logged.watched all
  by_cases trailed : r.index < u.hb
  · refine ⟨r.index :: new, logged.forwarded.bind unbound.1 v, logged.binds.trans change, ?_,
      logged.covers, ?_, ?_, ?_, watched⟩
    · dsimp only [Unifier.bind]
      rw [if_pos trailed, logged.trail, List.cons_append]
    · intro a inside member
      rcases List.mem_cons.1 member with rfl | member
      · have unwatched : r.tag ≠ .RFW := fun isRfw => allowed isRfw inside
        rw [← logged.kept _ inside fresh, ← logged.forwarded.agrees (ref_not_fwd unbound.1),
          own unwatched]
        exact make_of_var isRef rfl unwatched
      · exact logged.undo a inside member
    · intro a inside absent
      rw [List.mem_cons, not_or] at absent
      rw [Function.update_of_ne absent.1]
      exact logged.kept a inside absent.2
    · intro a member isVar'
      rcases List.mem_cons.1 member with rfl | member
      · rw [IsVar, Function.update_self] at isVar'
        exact value isVar'.1 isVar'.2
      · exact others a member isVar'
  · refine ⟨new, logged.forwarded.bind unbound.1 v, logged.binds.trans change, ?_, logged.covers,
      logged.undo, ?_, others, watched⟩
    · dsimp only [Unifier.bind]
      rw [if_neg trailed]
      exact logged.trail
    · intro a inside absent
      have other : a ≠ r.index := by
        rintro rfl
        exact trailed (logged.covers _ inside (isVar_of_binds logged.binds isVar))
      rw [Function.update_of_ne other]
      exact logged.kept a inside absent

/-- No watched variable of the part `P` is bound by the next turn, and none there is watched in the
place of one. -/
def Spares (P : ℕ → Prop) (u : Unifier) : Prop :=
  ∀ r v, Binding u r v → r.tag = .RFW → ¬P r.index ∧ (v.tag.isRef = true → ¬P v.index)

theorem Logged.turn (logged : Logged P m u base new) (spares : Spares P u) {n : ℕ} {a b : Cell}
    {stack : List (Cell × Cell)} {more : Bool} (popped : u.stack = (a, b) :: stack)
    (ran : turn n { u with stack := stack } a b = some (more, u')) :
    ∃ base' new', Logged P m u' base' new' := by
  have logged₀ : Logged P m { u with stack := stack } base new :=
    ⟨logged.forwarded, logged.binds, logged.trail, logged.covers, logged.undo, logged.kept,
      logged.bound, logged.watched⟩
  rcases turn_binding popped ran with ⟨r, v, u₁, binding, _, rfl, watched⟩ | ⟨_, rest⟩
  · obtain ⟨isVar, own, isRef⟩ := binding.isVar
    have value (ref : v.tag.isRef = true) : v.index ≠ r.index := (binding.value ref).2
    rcases watched with rfl | ⟨isRfw, ref, rfl⟩
    · obtain ⟨new', logged'⟩ := logged₀.bind isRef isVar (fun _ => own) value
        fun isRfw => (spares r v binding isRfw).1
      exact ⟨_, new', logged'⟩
    · obtain ⟨outside, outside'⟩ := spares r v binding isRfw
      obtain ⟨base₁, logged₁, _⟩ := logged₀.watch (binding.value ref).1 (outside' ref)
      obtain ⟨new', logged'⟩ := logged₁.bind isRef (isVar_watch isVar)
        (fun unwatched => absurd isRfw unwatched) value fun _ => outside
      exact ⟨_, new', logged'⟩
  · rcases rest with rfl | ⟨_, n, i, j, k, pairs, leads, small, isCon, apart, same, rfl⟩
    · exact ⟨base, new, logged₀⟩
    · exact ⟨base, new, .cons logged.forwarded isCon apart same (forward_lt leads small),
        logged.binds, logged.trail, logged.covers, logged.undo, logged.kept, logged.bound,
        logged.watched⟩

theorem Logged.reached (logged : Logged P m u base new) {w : Unifier} (later : Reached u w)
    (spares : ∀ w, Reached u w → Spares P w) : ∃ base' new', Logged P m w base' new' := by
  induction later with
  | refl => exact ⟨base, new, logged⟩
  | turn before popped ran ih =>
    obtain ⟨base', new', logged'⟩ := ih
    exact logged'.turn (spares _ before) popped ran

theorem Logged.first (logged : Logged P m u base new) {w : Unifier} (later : Reached u w) :
    (∃ base' new', Logged P m w base' new') ∨
      ∃ w' base' new', Reached u w' ∧ ¬Spares P w' ∧ Logged P m w' base' new' := by
  induction later with
  | refl => exact .inl ⟨base, new, logged⟩
  | @turn w₁ w₂ _ _ _ _ before popped ran ih =>
    rcases ih with ⟨base', new', logged'⟩ | earlier
    · by_cases spares : Spares P w₁
      · exact .inl (logged'.turn spares popped ran)
      · exact .inr ⟨w₁, base', new', before, spares, logged'⟩
    · exact .inr earlier

theorem Logged.loop (logged : Logged P m u base new) {n : ℕ} {same : Bool}
    (spares : ∀ w, Reached u w → Spares P w) (ran : unifyLoop n u = some (same, u')) :
    ∃ base' new', Logged P m u' base' new' ∧ u'.mem = base' := by
  induction n generalizing u base new with
  | zero => exact nomatch ran
  | succ n ih =>
    unfold unifyLoop at ran
    split at ran
    case h_1 =>
      obtain ⟨_, rfl⟩ := Prod.mk.inj (Option.some.inj ran)
      exact ⟨base, new, ⟨logged.forwarded.restored ▸ .none, logged.binds, logged.trail,
        logged.covers, logged.undo, logged.kept, logged.bound, logged.watched⟩,
        logged.forwarded.restored⟩
    case h_2 a b stack popped =>
      obtain ⟨⟨more, u₁⟩, turned, ran⟩ := Option.bind_eq_some_iff.1 ran
      obtain ⟨base₁, new₁, logged₁⟩ := logged.turn (spares u .refl) popped turned
      dsimp only at ran
      split_ifs at ran with goes
      · exact ih logged₁ (fun w later => spares w (.head popped (goes ▸ turned) later)) ran
      · obtain ⟨_, rfl⟩ := Prod.mk.inj (Option.some.inj ran)
        exact ⟨base₁, new₁, ⟨logged₁.forwarded.restored ▸ .none, logged₁.binds, logged₁.trail,
          logged₁.covers, logged₁.undo, logged₁.kept, logged₁.bound, logged₁.watched⟩,
          logged₁.forwarded.restored⟩

theorem logged_start (m : Machine) (P : ℕ → Prop) (a b : Cell)
    (covers : ∀ x, P x → IsVar m.mem x → x < m.size) : Logged P m (m.helper a b) m.mem [] where
  forwarded := .none
  binds := .refl m.mem
  trail := rfl
  covers := covers
  undo := fun _ _ => nofun
  kept := fun _ _ _ => rfl
  bound := nofun
  watched := fun _ => rfl

end Logged

section Unify

/-- Every unbound variable lies on the heap. -/
def OnHeap (m : Machine) : Prop := ∀ x, IsVar m.mem x → x < m.size

/-- No turn of the unification binds a watched variable. -/
def Unwatched (m : Machine) (a b : Cell) : Prop :=
  ∀ w r v, Reached (m.helper a b) w → Binding w r v → r.tag ≠ .RFW

variable {m m' : Machine} {n : ℕ} {a b : Cell} {u' : Unifier}

theorem spares_all_iff (u : Unifier) :
    Spares (fun _ => True) u ↔ ∀ r v, Binding u r v → r.tag ≠ .RFW := by
  constructor
  · intro spares r v binding isRfw
    exact (spares r v binding isRfw).1 trivial
  · intro unwatched r v binding isRfw
    exact absurd isRfw (unwatched r v binding)

theorem loop_undone (onHeap : OnHeap m) {same : Bool}
    (ran : unifyLoop n (m.helper a b) = some (same, u')) :
    ∃ new, u'.trail = new ++ m.trail ∧ (∀ x ∈ new, x < m.size) ∧
      (Unwatched m a b → unwindTrail u'.mem new = m.mem ∧ u'.watched = m.watched ∧
        (∀ x, x ∈ new ↔ ∃ w r v, Reached (m.helper a b) w ∧ Binding w r v ∧ r.index = x) ∧
        ∀ w r v, Reached (m.helper a b) w → Binding w r v → u'.mem r.index = v) ∧
      (¬Unwatched m a b → ∃ x ∈ new, (m.mem x).tag = .RFW) := by
  have logged := logged_start m (fun _ => True) a b fun x _ => onHeap x
  obtain ⟨new, trail, listed, values⟩ := loop_bindings .none ran
  have hb : (m.helper a b).hb = m.size := rfl
  refine ⟨new, trail, fun x mem => hb ▸ ((listed x).1 mem).1, fun unwatched => ?_,
    fun watched => ?_⟩
  · have spares : ∀ w, Reached (m.helper a b) w → Spares (fun _ => True) w := fun w later =>
      (spares_all_iff w).2 fun r v binding => unwatched w r v later binding
    obtain ⟨base, new', logged', done⟩ := logged.loop spares ran
    have same : new' = new := List.append_cancel_right (logged'.trail.symm.trans trail)
    subst same
    refine ⟨?_, logged'.watched fun _ => trivial, fun x => ⟨fun mem => ((listed x).1 mem).2, ?_⟩,
      values⟩
    · funext x
      rw [unwindTrail_apply]
      split_ifs with mem
      · exact (logged'.undo x trivial mem).symm
      · rw [done]
        exact logged'.kept x trivial mem
    · rintro ⟨w, r, v, later, binding, rfl⟩
      obtain ⟨base', _, before⟩ := logged.reached later spares
      have isVar := before.isVar binding.isVar.1
      exact (listed _).2
        ⟨onHeap _ (isVar_of_binds before.binds isVar), w, r, v, later, binding, rfl⟩
  · unfold Unwatched at watched
    push Not at watched
    obtain ⟨w, r, v, later, binding, isRfw⟩ := watched
    have ⟨w, base, new', later, touches, before⟩ : ∃ w base new', Reached (m.helper a b) w ∧
        ¬Spares (fun _ => True) w ∧ Logged (fun _ => True) m w base new' := by
      rcases logged.first later with ⟨base, new', before⟩ | earlier
      · exact ⟨w, base, new', later,
          fun spares => (spares_all_iff w).1 spares r v binding isRfw, before⟩
      · obtain ⟨w', base, new', found⟩ := earlier
        exact ⟨w', base, new', found⟩
    rw [spares_all_iff] at touches
    push Not at touches
    obtain ⟨r, v, binding, isRfw⟩ := touches
    obtain ⟨isVar, own, _⟩ := binding.isVar
    have isVar' := before.isVar isVar
    have fresh : r.index ∉ new' := fun mem => before.bound _ mem isVar'
    refine ⟨r.index, (listed _).2
      ⟨onHeap _ (isVar_of_binds before.binds isVar'), w, r, v, later, binding, rfl⟩, ?_⟩
    rw [← before.kept _ trivial fresh, ← before.forwarded.agrees (ref_not_fwd isVar.1), own]
    exact isRfw

theorem unify_false_iff (onHeap : OnHeap m) (ran : m.unify n a b = some (false, m')) :
    m' = m ↔ Unwatched m a b := by
  obtain ⟨⟨same, u⟩, looped, ran⟩ := Option.bind_eq_some_iff.1 ran
  obtain ⟨new, trail, _, undone, kept⟩ := loop_undone onHeap looped
  dsimp only at ran
  split_ifs at ran with succeeded
  · exact nomatch (Prod.mk.inj (Option.some.inj ran)).1
  obtain ⟨_, rfl⟩ := Prod.mk.inj (Option.some.inj ran)
  have count : u.trail.length - m.trail.length = new.length := by
    rw [trail, List.length_append, Nat.add_sub_cancel]
  have part : u.trail.take (u.trail.length - m.trail.length) = new := by
    rw [count, trail, List.take_left' rfl]
  have rest : u.trail.drop (u.trail.length - m.trail.length) = m.trail := by
    rw [count, trail, List.drop_left' rfl]
  constructor
  · intro same
    by_contra watched
    obtain ⟨x, mem, isRfw⟩ := kept watched
    have here := congrArg (fun m => (m.mem x).tag) same
    change (unwindTrail u.mem (u.trail.take (u.trail.length - m.trail.length)) x).tag = _ at here
    rw [part, unwindTrail_apply, if_pos mem, Cell.tag_make] at here
    exact nomatch here.trans isRfw
  · intro unwatched
    obtain ⟨cells, watched, _⟩ := undone unwatched
    have stack : (u.stack.flatMap (fun p => [p.1, p.2]) ++ m.stack).drop
        ((u.stack.flatMap (fun p => [p.1, p.2]) ++ m.stack).length - m.stack.length) = m.stack := by
      rw [List.length_append, Nat.add_sub_cancel, List.drop_left' rfl]
    unfold Machine.withHelper Machine.unwind Machine.trimStack
    dsimp only
    rw [part, rest, stack, cells, watched]

end Unify

section Since

def bind (m : Machine) (ref b : Cell) : Machine :=
  { m with
    watched := if ref.tag = .RFW then addWatched m.watched ref.index else m.watched
    mem := Function.update m.mem ref.index b
    trail := if ref.index < m.hb then ref.index :: m.trail else m.trail }

/-- `internal_set_frozen_closure`: the variable is watched and put on the trail. -/
def setWatch (m : Machine) (addr : ℕ) : Machine :=
  { m with
    mem := Function.update m.mem addr (Cell.make .RFW addr)
    trail := if addr < m.hb then addr :: m.trail else m.trail }

/-- The part of the trail since the choice point -/
def since (start m : Machine) : List ℕ := m.trail.take (m.trail.length - start.trail.length)

/-- The cells of the choice point that the trail does not list since -/
def Untrailed (start m : Machine) (x : ℕ) : Prop := x < start.size ∧ x ∉ since start m

/-- What can happen after a choice point was made. No watched variable that the trail does not list
is bound, and none takes over a watch. -/
inductive Since (start : Machine) : Machine → Prop
  | start (atTop : start.hb = start.size) : Since start start
  | bind {m : Machine} {r : Cell} (v : Cell) (before : Since start m)
      (isRef : r.tag.isRef = true) (unbound : m.mem r.index = r)
      (spares : r.tag = .RFW → ¬Untrailed start m r.index) : Since start (bind m r v)
  | setWatch {m : Machine} {addr : ℕ} (before : Since start m)
      (unbound : m.mem addr = Cell.make .REF addr) : Since start (setWatch m addr)
  | unify {m m' : Machine} {n : ℕ} {a b : Cell} {same : Bool} (before : Since start m)
      (ran : m.unify n a b = some (same, m'))
      (spares : ∀ w, Reached (m.helper a b) w → Spares (Untrailed start m) w) : Since start m'
  /-- New cells and newer choice points, and the end of them -/
  | write {m m' : Machine} (before : Since start m) (trail : m'.trail = m.trail)
      (old : ∀ x, x < start.size → m'.mem x = m.mem x) (size : start.size ≤ m'.size)
      (hb : start.size ≤ m'.hb) : Since start m'
  /-- Backtracking to a newer choice point -/
  | unwind {m : Machine} {from' : ℕ} (before : Since start m)
      (newer : start.trail.length ≤ from') : Since start (m.unwind from')

/-- The trail has what it takes to restore the cells of the choice point. -/
structure Restorable (start m : Machine) (new : List ℕ) : Prop where
  trail : m.trail = new ++ start.trail
  size : start.size ≤ m.size
  hb : start.size ≤ m.hb
  undo : ∀ x, x < start.size → x ∈ new → start.mem x = Cell.make .REF x
  kept : ∀ x, x < start.size → x ∉ new → m.mem x = start.mem x

variable {start m m' : Machine} {new : List ℕ}

theorem Restorable.since_eq (restorable : Restorable start m new) : since start m = new := by
  unfold since
  rw [restorable.trail, List.length_append, Nat.add_sub_cancel, List.take_left' rfl]

theorem Restorable.push (restorable : Restorable start m new) {x : ℕ} {c : Cell}
    {watched : List ℕ} (plain : x < start.size → x ∉ new → start.mem x = Cell.make .REF x) :
    ∃ new', Restorable start
      { m with
        watched := watched
        mem := Function.update m.mem x c
        trail := if x < m.hb then x :: m.trail else m.trail } new' := by
  have others (y : ℕ) (old : y < start.size) (absent : y ∉ new) (other : y ≠ x) :
      Function.update m.mem x c y = start.mem y := by
    rw [Function.update_of_ne other]
    exact restorable.kept y old absent
  by_cases trailed : x < m.hb
  · refine ⟨x :: new, ?_, restorable.size, restorable.hb, fun y old mem => ?_,
      fun y old absent => ?_⟩
    · dsimp only
      rw [if_pos trailed, restorable.trail, List.cons_append]
    · by_cases listed : y ∈ new
      · exact restorable.undo y old listed
      · obtain rfl := (List.mem_cons.1 mem).resolve_right listed
        exact plain old listed
    · rw [List.mem_cons, not_or] at absent
      exact others y old absent.2 absent.1
  · refine ⟨new, ?_, restorable.size, restorable.hb, restorable.undo, fun y old absent => ?_⟩
    · dsimp only
      rw [if_neg trailed]
      exact restorable.trail
    · apply others y old absent
      rintro rfl
      have := restorable.hb
      omega

theorem Restorable.bind (restorable : Restorable start m new) {r : Cell} (v : Cell)
    (isRef : r.tag.isRef = true) (unbound : m.mem r.index = r)
    (spares : r.tag = .RFW → ¬Untrailed start m r.index) :
    ∃ new', Restorable start (bind m r v) new' := by
  apply restorable.push
  intro old absent
  have unwatched : r.tag ≠ .RFW := by
    intro isRfw
    apply spares isRfw
    exact ⟨old, restorable.since_eq ▸ absent⟩
  rw [← restorable.kept _ old absent, unbound]
  exact make_of_var isRef rfl unwatched

theorem Restorable.setWatch (restorable : Restorable start m new) {addr : ℕ}
    (unbound : m.mem addr = Cell.make .REF addr) :
    ∃ new', Restorable start (setWatch m addr) new' := by
  apply restorable.push
  intro old absent
  rw [← restorable.kept _ old absent, unbound]

theorem Restorable.unify (restorable : Restorable start m new) {n : ℕ} {a b : Cell} {same : Bool}
    (ran : m.unify n a b = some (same, m'))
    (spares : ∀ w, Reached (m.helper a b) w → Spares (Untrailed start m) w) :
    ∃ new', Restorable start m' new' := by
  obtain ⟨⟨more, u⟩, looped, ran⟩ := Option.bind_eq_some_iff.1 ran
  have logged := logged_start m (Untrailed start m) a b
    fun x untrailed _ => lt_of_lt_of_le untrailed.1 restorable.size
  obtain ⟨base, part, logged', done⟩ := logged.loop spares looped
  have count : u.trail.length - m.trail.length = part.length := by
    rw [logged'.trail, List.length_append, Nat.add_sub_cancel]
  have atTop : u.trail.take (u.trail.length - m.trail.length) = part := by
    rw [count, logged'.trail, List.take_left' rfl]
  have rest : u.trail.drop (u.trail.length - m.trail.length) = m.trail := by
    rw [count, logged'.trail, List.drop_left' rfl]
  have untrailed {x : ℕ} (old : x < start.size) (absent : x ∉ new) : Untrailed start m x :=
    ⟨old, restorable.since_eq ▸ absent⟩
  have undo {x : ℕ} (old : x < start.size) (mem : x ∈ part ∨ x ∈ new) :
      start.mem x = Cell.make .REF x := by
    by_cases listed : x ∈ new
    · exact restorable.undo x old listed
    · rw [← restorable.kept x old listed]
      exact logged'.undo x (untrailed old listed) (mem.resolve_right listed)
  have kept {x : ℕ} (old : x < start.size) (absent : x ∉ part) (absent' : x ∉ new) :
      u.mem x = start.mem x := by
    rw [done, logged'.kept x (untrailed old absent') absent]
    exact restorable.kept x old absent'
  dsimp only at ran
  split_ifs at ran
  · obtain ⟨_, rfl⟩ := Prod.mk.inj (Option.some.inj ran)
    refine ⟨(tidy m.hb part.length part.reverse).reverse ++ new, ?_, restorable.size,
      restorable.hb, fun x old mem => ?_, fun x old absent => ?_⟩
    · change (tidy m.hb (u.trail.length - m.trail.length)
        (u.trail.take (u.trail.length - m.trail.length)).reverse).reverse ++
        u.trail.drop (u.trail.length - m.trail.length) = _
      rw [atTop, rest, count, restorable.trail, List.append_assoc]
    · apply undo old
      rw [List.mem_append, List.mem_reverse] at mem
      exact mem.imp_left fun mem => List.mem_reverse.1 (tidy_subset mem)
    · have young : x < m.hb := lt_of_lt_of_le old restorable.hb
      rw [List.mem_append, List.mem_reverse, mem_tidy (List.length_reverse.le) x young,
        List.mem_reverse, not_or] at absent
      exact kept old absent.1 absent.2
  · obtain ⟨_, rfl⟩ := Prod.mk.inj (Option.some.inj ran)
    refine ⟨new, ?_, restorable.size, restorable.hb, restorable.undo, fun x old absent => ?_⟩
    · change u.trail.drop (u.trail.length - m.trail.length) = _
      rw [rest, restorable.trail]
    · change unwindTrail u.mem (u.trail.take (u.trail.length - m.trail.length)) x = _
      rw [atTop, unwindTrail_apply]
      split_ifs with mem
      · exact (undo old (.inl mem)).symm
      · exact kept old mem absent

theorem Restorable.unwind (restorable : Restorable start m new) {from' : ℕ}
    (newer : start.trail.length ≤ from') :
    Restorable start (m.unwind from') (new.drop (m.trail.length - from')) := by
  have count : m.trail.length - from' ≤ new.length := by
    rw [restorable.trail, List.length_append]
    omega
  have part {k : ℕ} (few : k ≤ new.length) : m.trail.take k = new.take k := by
    rw [restorable.trail, List.take_append_of_le_length few]
  have rest {k : ℕ} (few : k ≤ new.length) : m.trail.drop k = new.drop k ++ start.trail := by
    rw [restorable.trail, List.drop_append_of_le_length few]
  refine ⟨?_, restorable.size, restorable.hb,
    fun x old mem => restorable.undo x old (List.mem_of_mem_drop mem), fun x old absent => ?_⟩
  · exact rest count
  · change unwindTrail m.mem (m.trail.take (m.trail.length - from')) x = _
    rw [part count, unwindTrail_apply]
    split_ifs with mem
    · exact (restorable.undo x old (List.mem_of_mem_take mem)).symm
    · apply restorable.kept x old
      intro listed
      rw [← List.take_append_drop (m.trail.length - from') new, List.mem_append] at listed
      exact listed.elim mem absent

theorem Since.restorable (reached : Since start m) : ∃ new, Restorable start m new := by
  induction reached with
  | start atTop => exact ⟨[], rfl, le_rfl, atTop.ge, fun _ _ => nofun, fun _ _ _ => rfl⟩
  | bind v _ isRef unbound spares ih =>
    obtain ⟨new, restorable⟩ := ih
    exact restorable.bind v isRef unbound spares
  | setWatch _ unbound ih =>
    obtain ⟨new, restorable⟩ := ih
    exact restorable.setWatch unbound
  | unify _ ran spares ih =>
    obtain ⟨new, restorable⟩ := ih
    exact restorable.unify ran spares
  | write _ trail old size hb ih =>
    obtain ⟨new, restorable⟩ := ih
    exact ⟨new, trail.trans restorable.trail, size, hb, restorable.undo,
      fun x young absent => (old x young).trans (restorable.kept x young absent)⟩
  | unwind _ newer ih =>
    obtain ⟨new, restorable⟩ := ih
    exact ⟨_, restorable.unwind newer⟩

theorem Since.unwound (reached : Since start m) :
    (∀ x, x < start.size → (m.unwind start.trail.length).mem x = start.mem x) ∧
      (m.unwind start.trail.length).trail = start.trail := by
  obtain ⟨new, restorable⟩ := reached.restorable
  have unwound := restorable.unwind le_rfl
  have all : new.drop (m.trail.length - start.trail.length) = [] := by
    rw [restorable.trail, List.length_append, Nat.add_sub_cancel, List.drop_length]
  rw [all] at unwound
  exact ⟨fun x old => unwound.kept x old nofun, unwound.trail⟩

end Since

section CanUnify

/-- The part of an interpreter that `can_unify` works on -/
structure InterpreterBase where
  machine : Machine
  /-- `frozen_closures_` -/
  closures : FMap ℕ Cell

/-- The body of the loop of `unwind_frozen_closures`: `clear_frozen_closure` of a watched cell -/
def clearFrozen (addr : ℕ) (s : (ℕ → Cell) × FMap ℕ Cell) : (ℕ → Cell) × FMap ℕ Cell :=
  if (s.1 addr).tag = .RFW then
    (Function.update s.1 addr (Cell.make .REF (s.1 addr).index), s.2.erase addr)
  else s

def InterpreterBase.unwind (s : InterpreterBase) (fromTr : ℕ) : InterpreterBase :=
  let part := s.machine.trail.take (s.machine.trail.length - fromTr)
  let (mem, closures) := part.foldr clearFrozen (s.machine.mem, s.closures)
  { machine := { s.machine with mem := mem }.unwind fromTr, closures := closures }

def InterpreterBase.canUnify (fuel : ℕ) (s : InterpreterBase) (a b : Cell) : Option (Bool × InterpreterBase) := do
  let oldHb := s.machine.hb
  let currentTr := s.machine.trail.length
  let (r, m) ← { s.machine with hb := s.machine.size }.unify fuel a b
  let s := { s with machine := m }
  let s := if r then s.unwind currentTr else s
  return (r, { s with machine := { s.machine with hb := oldHb } })

/-- No turn of the unification binds a variable with a closure to a watched one. -/
def ClosuresKept (s : InterpreterBase) (a b : Cell) : Prop :=
  ∀ w r v, Reached (s.machine.helper a b) w → Binding w r v → v.tag = .RFW →
    s.closures.lookup r.index = none

variable {s s' : InterpreterBase} {n : ℕ} {a b : Cell}

theorem clearFrozen_apply (addr : ℕ) (s : (ℕ → Cell) × FMap ℕ Cell) (x : ℕ) :
    (clearFrozen addr s).1 x =
        (if x = addr ∧ (s.1 x).tag = .RFW then Cell.make .REF (s.1 x).index else s.1 x) ∧
      (clearFrozen addr s).2.lookup x =
        if x = addr ∧ (s.1 x).tag = .RFW then none else s.2.lookup x := by
  unfold clearFrozen
  by_cases here : x = addr
  · subst here
    simp only [true_and]
    split_ifs
    · exact ⟨Function.update_self .., Finmap.lookup_erase ..⟩
    · exact ⟨rfl, rfl⟩
  · simp only [here, false_and, if_false]
    split_ifs
    · exact ⟨Function.update_of_ne here .., Finmap.lookup_erase_ne here⟩
    · exact ⟨rfl, rfl⟩

theorem clearFrozen_foldr (part : List ℕ) (s : (ℕ → Cell) × FMap ℕ Cell) (x : ℕ) :
    (part.foldr clearFrozen s).1 x =
        (if x ∈ part ∧ (s.1 x).tag = .RFW then Cell.make .REF (s.1 x).index else s.1 x) ∧
      (part.foldr clearFrozen s).2.lookup x =
        if x ∈ part ∧ (s.1 x).tag = .RFW then none else s.2.lookup x := by
  induction part with
  | nil => simp only [List.not_mem_nil, false_and, if_false, List.foldr_nil, and_self]
  | cons addr part ih =>
    obtain ⟨cell, closure⟩ := ih
    obtain ⟨cell', closure'⟩ := clearFrozen_apply addr (part.foldr clearFrozen s) x
    rw [List.foldr_cons, cell', closure', closure, cell]
    by_cases watched : (s.1 x).tag = .RFW
    · by_cases mem : x ∈ part
      · simp [mem, watched]
      · simp [mem, watched]
    · simp [watched]

theorem unwindTrail_congr {mem mem' : ℕ → Cell} {part : List ℕ}
    (same : ∀ x, x ∉ part → mem x = mem' x) : unwindTrail mem part = unwindTrail mem' part := by
  funext x
  rw [unwindTrail_apply, unwindTrail_apply]
  split_ifs with listed
  · rfl
  · exact same x listed

theorem loop_true_stack {u u' : Unifier} (ran : unifyLoop n u = some (true, u')) :
    u'.stack = [] := by
  induction n generalizing u with
  | zero => exact nomatch ran
  | succ n ih =>
    unfold unifyLoop at ran
    split at ran
    case h_1 empty =>
      obtain ⟨_, rfl⟩ := Prod.mk.inj (Option.some.inj ran)
      exact empty
    case h_2 =>
      obtain ⟨⟨more, u₁⟩, _, ran⟩ := Option.bind_eq_some_iff.1 ran
      dsimp only at ran
      split_ifs at ran
      · exact ih ran
      · exact nomatch (Prod.mk.inj (Option.some.inj ran)).1

theorem canUnify_false_iff (onHeap : OnHeap s.machine)
    (ran : s.canUnify n a b = some (false, s')) : s' = s ↔ Unwatched s.machine a b := by
  obtain ⟨⟨same, m'⟩, unified, ran⟩ := Option.bind_eq_some_iff.1 ran
  obtain ⟨rfl, rfl⟩ := Prod.mk.inj (Option.some.inj ran)
  have unchanged := unify_false_iff (m := { s.machine with hb := s.machine.size }) onHeap unified
  have hb : m'.hb = s.machine.size := by
    obtain ⟨⟨same, u⟩, _, unified⟩ := Option.bind_eq_some_iff.1 unified
    dsimp only at unified
    split_ifs at unified with succeeded
    · exact nomatch (Prod.mk.inj (Option.some.inj unified)).1
    · rw [← (Prod.mk.inj (Option.some.inj unified)).2]
      rfl
  rw [show Unwatched s.machine a b ↔ _ from unchanged.symm]
  obtain ⟨⟨mem, size, stack, trail, watched, hb₀⟩, closures⟩ := s
  obtain ⟨mem', size', stack', trail', watched', hb'⟩ := m'
  obtain rfl : hb' = size := hb
  simp

theorem canUnify_true {new : List ℕ} {u : Unifier}
    (looped : unifyLoop n (s.machine.helper a b) = some (true, u))
    (trail : u.trail = new ++ s.machine.trail) (young : ∀ x ∈ new, x < s.machine.size)
    (ran : s.canUnify n a b = some (true, s')) :
    s'.machine = { s.machine with mem := unwindTrail u.mem new, watched := u.watched } ∧
      ∀ x, s'.closures.lookup x =
        if x ∈ new ∧ (u.mem x).tag = .RFW then none else s.closures.lookup x := by
  have count : u.trail.length - s.machine.trail.length = new.length := by
    rw [trail, List.length_append, Nat.add_sub_cancel]
  have part : u.trail.take (u.trail.length - s.machine.trail.length) = new := by
    rw [count, trail, List.take_left' rfl]
  have rest : u.trail.drop (u.trail.length - s.machine.trail.length) = s.machine.trail := by
    rw [count, trail, List.drop_left' rfl]
  have unified : { s.machine with hb := s.machine.size }.unify n a b = some (true,
      { s.machine with
        mem := u.mem, stack := s.machine.stack, trail := u.trail, watched := u.watched,
        hb := s.machine.size }) := by
    refine Option.bind_eq_some_iff.2 ⟨(true, u), looped, ?_⟩
    unfold Machine.tidyTrail Machine.withHelper
    dsimp only
    rw [part, rest, if_pos rfl, loop_true_stack looped, List.flatMap_nil, List.nil_append,
      tidy_eq_self fun x mem => young x (List.mem_reverse.1 mem), List.reverse_reverse, trail]
    rfl
  obtain ⟨⟨same, m'⟩, unified', ran⟩ := Option.bind_eq_some_iff.1 ran
  rw [unified] at unified'
  obtain ⟨rfl, rfl⟩ := Prod.mk.inj (Option.some.inj unified')
  obtain ⟨_, rfl⟩ := Prod.mk.inj (Option.some.inj ran)
  have cleared := clearFrozen_foldr new (u.mem, s.closures)
  have cells : unwindTrail (new.foldr clearFrozen (u.mem, s.closures)).1 new =
      unwindTrail u.mem new := by
    apply unwindTrail_congr
    intro x absent
    rw [(cleared x).1, if_neg fun listed => absent listed.1]
  unfold InterpreterBase.unwind Machine.unwind
  dsimp only
  rw [if_pos rfl]
  dsimp only
  rw [part, rest, cells]
  exact ⟨rfl, fun x => (cleared x).2⟩

theorem canUnify_true_iff (onHeap : OnHeap s.machine)
    (ran : s.canUnify n a b = some (true, s')) :
    s' = s ↔ Unwatched s.machine a b ∧ ClosuresKept s a b := by
  have ⟨u, looped⟩ : ∃ u, unifyLoop n (s.machine.helper a b) = some (true, u) := by
    obtain ⟨⟨same, m'⟩, unified, ran⟩ := Option.bind_eq_some_iff.1 ran
    obtain ⟨rfl, _⟩ := Prod.mk.inj (Option.some.inj ran)
    obtain ⟨⟨same, u⟩, looped, unified⟩ := Option.bind_eq_some_iff.1 unified
    dsimp only at unified
    split_ifs at unified with succeeded
    · exact ⟨u, succeeded ▸ looped⟩
    · exact nomatch (Prod.mk.inj (Option.some.inj unified)).1
  obtain ⟨new, trail, young, undone, kept⟩ := loop_undone onHeap looped
  obtain ⟨machine, closures⟩ := canUnify_true looped trail young ran
  constructor
  · rintro rfl
    have unwatched : Unwatched s'.machine a b := by
      by_contra watched
      obtain ⟨x, mem, isRfw⟩ := kept watched
      have here := congrArg (fun m => (m.mem x).tag) machine
      dsimp only at here
      rw [unwindTrail_apply, if_pos mem, Cell.tag_make] at here
      exact nomatch isRfw.symm.trans here
    obtain ⟨_, _, listed, values⟩ := undone unwatched
    refine ⟨unwatched, fun w r v later binding isRfw => ?_⟩
    rw [closures r.index,
      if_pos ⟨(listed _).2 ⟨w, r, v, later, binding, rfl⟩, values w r v later binding ▸ isRfw⟩]
  · rintro ⟨unwatched, closuresKept⟩
    obtain ⟨cells, watched, listed, values⟩ := undone unwatched
    have same : s'.machine = s.machine := by rw [machine, cells, watched]
    have same' : s'.closures = s.closures := by
      apply Finmap.ext_lookup
      intro x
      rw [closures x]
      split_ifs with erased
      · obtain ⟨w, r, v, later, binding, rfl⟩ := (listed x).1 erased.1
        rw [values w r v later binding] at erased
        exact (closuresKept w r v later binding erased.2).symm
      · rfl
    exact congrArg₂ InterpreterBase.mk same same'

/-- What failed unification, backtracking to a choice point and the test of a unification leave
behind. -/
theorem no_trace_iff (n : ℕ) (m : Machine) (a b : Cell) (onHeap : OnHeap m) :
    (∀ m', m.unify n a b = some (false, m') → (m' = m ↔ Unwatched m a b)) ∧
    (∀ m', Since m m' →
      (∀ x, x < m.size → (m'.unwind m.trail.length).mem x = m.mem x) ∧
        (m'.unwind m.trail.length).trail = m.trail) ∧
    (∀ closures s', InterpreterBase.canUnify n ⟨m, closures⟩ a b = some (false, s') →
      (s' = ⟨m, closures⟩ ↔ Unwatched m a b)) ∧
    ∀ closures s', InterpreterBase.canUnify n ⟨m, closures⟩ a b = some (true, s') →
      (s' = ⟨m, closures⟩ ↔ Unwatched m a b ∧ ClosuresKept ⟨m, closures⟩ a b) :=
  ⟨fun _ ran => unify_false_iff onHeap ran, fun _ reached => reached.unwound,
    fun _ _ ran => canUnify_false_iff onHeap ran, fun _ _ ran => canUnify_true_iff onHeap ran⟩

/-- `f(X, 1)` and `f(7, 2)` with the variable `x` in cell 0 -/
def pairCells (x : Cell) : ℕ → Cell
  | 0 => x
  | 1 => Cell.conOfIndex 300 2
  | 2 => Cell.make .REF 0
  | 3 => Cell.make .INT 1
  | 4 => Cell.conOfIndex 300 2
  | 5 => Cell.make .INT 7
  | 6 => Cell.make .INT 2
  | _ => Cell.make .INT 0

/-- A heap of these cells with the choice point on top -/
def pairMachine (x : Cell) (watched : List ℕ) : Machine where
  mem := pairCells x
  size := 7
  stack := []
  trail := []
  watched := watched
  hb := 7

theorem pairMachine_onHeap (x : Cell) (watched : List ℕ) : OnHeap (pairMachine x watched) := by
  intro y isVar
  by_contra outside
  obtain ⟨k, rfl⟩ : ∃ k, y = k + 7 := ⟨y - 7, by simp only [pairMachine] at outside; omega⟩
  have notRef : (pairCells x (k + 7)).tag.isRef = false := rfl
  exact nomatch notRef.symm.trans isVar.1

/-- A unification that fails, backtracking over a binding, and a test that succeeds -/
theorem no_trace_pair :
    (∃ m', (pairMachine (Cell.make .REF 0) []).unify 9 (Cell.make .STR 1) (Cell.make .STR 4) =
        some (false, m') ∧ (m' = pairMachine (Cell.make .REF 0) [] ↔
          Unwatched (pairMachine (Cell.make .REF 0) []) (Cell.make .STR 1) (Cell.make .STR 4))) ∧
    ((bind (pairMachine (Cell.make .REF 0) []) (Cell.make .REF 0) (Cell.make .INT 7)).unwind 0).mem 0
      = Cell.make .REF 0 ∧
    ∃ s', InterpreterBase.canUnify 9 ⟨pairMachine (Cell.make .RFW 0) [], ∅⟩ (Cell.make .RFW 0)
        (Cell.make .INT 7) = some (true, s') ∧
      (s' = ⟨pairMachine (Cell.make .RFW 0) [], ∅⟩ ↔
        Unwatched (pairMachine (Cell.make .RFW 0) []) (Cell.make .RFW 0) (Cell.make .INT 7) ∧
          ClosuresKept ⟨pairMachine (Cell.make .RFW 0) [], ∅⟩ (Cell.make .RFW 0)
            (Cell.make .INT 7)) := by
  have plain := no_trace_iff 9 (pairMachine (Cell.make .REF 0) []) (Cell.make .STR 1)
    (Cell.make .STR 4) (pairMachine_onHeap _ _)
  have watched := no_trace_iff 9 (pairMachine (Cell.make .RFW 0) []) (Cell.make .RFW 0)
    (Cell.make .INT 7) (pairMachine_onHeap _ _)
  have reached : Since (pairMachine (Cell.make .REF 0) [])
      (bind (pairMachine (Cell.make .REF 0) []) (Cell.make .REF 0) (Cell.make .INT 7)) :=
    .bind _ (.start rfl) rfl rfl fun isRfw => nomatch isRfw
  exact ⟨⟨_, rfl, plain.1 _ rfl⟩, (plain.2.1 _ reached).1 0 (by decide),
    ⟨_, rfl, watched.2.2.2 ∅ _ rfl⟩⟩

/-- The variable was watched before, and is not afterwards; its address is on the list. -/
theorem watch_lost :
    ∃ m', (pairMachine (Cell.make .RFW 0) []).unify 9 (Cell.make .STR 1) (Cell.make .STR 4) =
        some (false, m') ∧
      m'.mem 0 = Cell.make .REF 0 ∧ (pairMachine (Cell.make .RFW 0) []).mem 0 = Cell.make .RFW 0 ∧
      m'.watched = [0] := by
  refine ⟨_, rfl, ?_⟩
  decide

end CanUnify

end Epilog.Interp.Backtracking
