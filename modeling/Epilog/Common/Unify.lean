/- Module: Epilog/Common/Unify
   source: src/src/common/term_env.cpp (unify, unify_helper, restore_cells_after_unify)
   digest: Unification on the cells of a heap, with forwarding cells against cycles. -/

import Epilog.Common.TermWalk

set_option autoImplicit false

namespace Epilog.Common.Unify

open Epilog.Common.Term Epilog.Common.Heap Epilog.Common.TermWalk Epilog.Lib.Fuel

/-- The part of a term environment that unification works on. -/
structure Machine where
  mem : ℕ → Cell
  /-- `heap_size` -/
  size : ℕ
  stack : List Cell
  /-- The last address in front -/
  trail : List ℕ
  watched : List ℕ
  hb : ℕ

/-- `unify_helper` at work: its pairs on top of the stack, and the trail of the constants that a
forwarding cell stands for. -/
structure Unifier where
  mem : ℕ → Cell
  stack : List (Cell × Cell)
  trail : List ℕ
  tempTrail : List ℕ
  watched : List ℕ
  hb : ℕ

def addWatched (watched : List ℕ) (addr : ℕ) : List ℕ :=
  if addr ∈ watched then watched else watched ++ [addr]

namespace Unifier

/-- `heap_watch(addr, true)` -/
def watch (u : Unifier) (addr : ℕ) : Unifier :=
  if (u.mem addr).tag = .REF then
    { u with mem := Function.update u.mem addr (Cell.make .RFW (u.mem addr).index) }
  else u

/-- `bind`: only what is older than the choice point goes on the trail. -/
def bind (u : Unifier) (ref b : Cell) : Unifier :=
  { u with
    watched := if ref.tag = .RFW then addWatched u.watched ref.index else u.watched
    mem := Function.update u.mem ref.index b
    trail := if ref.index < u.hb then ref.index :: u.trail else u.trail }

/-- A constant is replaced by a forwarding cell, and pairs of arguments are pushed. -/
def merge (u : Unifier) (i j : ℕ) (pairs : List (Cell × Cell)) : Unifier :=
  { u with
    mem := Function.update u.mem i (Cell.make .FWD j)
    tempTrail := i :: u.tempTrail
    stack := pairs ++ u.stack }

end Unifier

section Cells

variable (mem : ℕ → Cell)

/-- From one forwarding cell to the next -/
def forward : (fuel : ℕ) → ℕ → Option ℕ
  | 0, _ => none
  | fuel + 1, i => if (mem i).tag = .FWD then forward fuel (mem i).index else some i

/-- Byte `i` of a bignum; the first four are in the upper half of its header. -/
def bigByte (addr i : ℕ) : ℕ := (mem (addr + (i + 4) / 8)).raw.toNat / 2 ^ (8 * ((i + 4) % 8)) % 256

/-- `num_bits` and the bytes that `get_big` imports -/
def bigBytes (big : Cell) : ℕ × List ℕ :=
  let bits := (mem big.index).numBits
  (bits, (List.range ((bits + 7) / 8)).map (bigByte mem big.index))

/-- The pairs of arguments, the first one on top. -/
def argPairs (fuel : ℕ) (s t : Cell) (arity : ℕ) : Option (List (Cell × Cell)) :=
  (List.range arity).mapM fun i => do
    let a ← arg mem fuel s i
    let b ← arg mem fuel t i
    return (a, b)

end Cells

/-- One turn of the loop of `unify_helper`, for the pair that is popped: whether it goes on. -/
def turn (fuel : ℕ) (u : Unifier) (a b : Cell) : Option (Bool × Unifier) := do
  let a ← deref u.mem fuel a
  let b ← deref u.mem fuel b
  if a = b then return (true, u)
  if a.tag.isRef then
    if b.tag.isRef then
      -- higher addresses are bound to lower ones, which are watched instead
      if a.index < b.index then
        let u := if b.tag = .RFW then u.watch a.index else u
        return (true, u.bind b a)
      else
        let u := if a.tag = .RFW then u.watch b.index else u
        return (true, u.bind a b)
    else return (true, u.bind a b)
  if b.tag.isRef then return (true, u.bind b a)
  if a.tag ≠ b.tag then return (false, u)
  match a.tag with
  | .CON | .INT => return (false, u)
  | .STR =>
    let i ← forward u.mem fuel a.index
    let j ← forward u.mem fuel b.index
    -- `expected_con_cell_exception`
    if (u.mem i).tag ≠ .CON then none
    if i = j then return (true, u)
    if u.mem i ≠ u.mem j then return (false, u)
    let merged := u.merge i j []
    let pairs ← argPairs merged.mem fuel a b (u.mem i).arity
    return (true, u.merge i j pairs)
  | .BIG => return (bigBytes u.mem a = bigBytes u.mem b, u)
  | _ => return (true, u)

/-- `restore_cells_after_unify` -/
def restore (mem : ℕ → Cell) : List ℕ → ℕ → Cell
  | [] => mem
  | i :: trail => restore (Function.update mem i (mem (mem i).index)) trail

/-- `unify_helper` from its loop on -/
def unifyLoop : (fuel : ℕ) → Unifier → Option (Bool × Unifier)
  | 0, _ => none
  | fuel + 1, u =>
    match u.stack with
    | [] => some (true, { u with mem := restore u.mem u.tempTrail, tempTrail := [] })
    | (a, b) :: stack => do
      let (more, u) ← turn fuel { u with stack := stack } a b
      if more then unifyLoop fuel u
      else return (false, { u with mem := restore u.mem u.tempTrail, tempTrail := [] })

def unwindTrail (mem : ℕ → Cell) (trail : List ℕ) : ℕ → Cell :=
  trail.foldr (fun addr mem => Function.update mem addr (Cell.make .REF addr)) mem

/-- The loop of `tidy_trail` over a part of the trail, its first address in front: what is not
older than the choice point gives its place to the last one. -/
def tidy (hb : ℕ) : (fuel : ℕ) → List ℕ → List ℕ
  | 0, part => part
  | _, [] => []
  | fuel + 1, addr :: part =>
    if addr < hb then addr :: tidy hb fuel part
    else
      match part.getLast? with
      | none => []
      | some last => tidy hb fuel (last :: part.dropLast)

namespace Machine

/-- `unwind_trail(from, trail_size())` and `trim_trail(from)` -/
def unwind (m : Machine) (start : ℕ) : Machine :=
  let n := m.trail.length - start
  { m with mem := unwindTrail m.mem (m.trail.take n), trail := m.trail.drop n }

/-- `tidy_trail(from, trail_size())` -/
def tidyTrail (m : Machine) (start : ℕ) : Machine :=
  let n := m.trail.length - start
  { m with trail := (tidy m.hb n (m.trail.take n).reverse).reverse ++ m.trail.drop n }

def trimStack (m : Machine) (start : ℕ) : Machine :=
  { m with stack := m.stack.drop (m.stack.length - start) }

/-- `unify_helper`, called with `register_hb` at the top of the heap. -/
def helper (m : Machine) (a b : Cell) : Unifier where
  mem := m.mem
  stack := [(a, b)]
  trail := m.trail
  tempTrail := []
  watched := m.watched
  hb := m.size

/-- The environment after `unify_helper`, with `register_hb` as it was before. -/
def withHelper (m : Machine) (u : Unifier) : Machine :=
  { m with
    mem := u.mem
    stack := u.stack.flatMap (fun p => [p.1, p.2]) ++ m.stack
    trail := u.trail
    watched := u.watched }

/-- `unify`: the bindings of a failure are undone. -/
def unify (fuel : ℕ) (m : Machine) (a b : Cell) : Option (Bool × Machine) := do
  let startTrail := m.trail.length
  let startStack := m.stack.length
  let (same, u) ← unifyLoop fuel (m.helper a b)
  let m := m.withHelper u
  if same then return (true, m.tidyTrail startTrail)
  else return (false, (m.unwind startTrail).trimStack startStack)

end Machine

section Turns

/-- The variable that a turn binds, and what it binds it to: the one with the higher address to the
other if both values are variables. -/
def boundPair (a b : Cell) : Option (Cell × Cell) :=
  if a = b then none
  else if a.tag.isRef then
    if b.tag.isRef ∧ a.index < b.index then some (b, a) else some (a, b)
  else if b.tag.isRef then some (b, a)
  else none

/-- What a turn does with the values `a` and `b` of the two terms. -/
inductive Turns (u : Unifier) (a b : Cell) : Bool → Unifier → Prop
  | equal (same : a = b) : Turns u a b true u
  | bind (r v : Cell) (u' : Unifier) (pair : boundPair a b = some (r, v))
      (watched : u' = u ∨ r.tag = .RFW ∧ v.tag.isRef = true ∧ u' = u.watch v.index) :
      Turns u a b true (u'.bind r v)
  | clash (apart : a ≠ b) (notRef : a.tag.isRef = false) (notRef' : b.tag.isRef = false)
      (reason : a.tag ≠ b.tag ∨ a.tag = .CON ∨ a.tag = .INT) : Turns u a b false u
  | big (isBig : a.tag = .BIG) (isBig' : b.tag = .BIG) :
      Turns u a b (bigBytes u.mem a = bigBytes u.mem b) u
  | linked (n i : ℕ) (isStr : a.tag = .STR) (isStr' : b.tag = .STR)
      (leads : forward u.mem n a.index = some i) (leads' : forward u.mem n b.index = some i) :
      Turns u a b true u
  | functors (n i j : ℕ) (isStr : a.tag = .STR) (isStr' : b.tag = .STR)
      (leads : forward u.mem n a.index = some i) (leads' : forward u.mem n b.index = some j)
      (isCon : (u.mem i).tag = .CON) (apart : u.mem i ≠ u.mem j) : Turns u a b false u
  | merge (n i j : ℕ) (pairs : List (Cell × Cell)) (isStr : a.tag = .STR) (isStr' : b.tag = .STR)
      (leads : forward u.mem n a.index = some i) (leads' : forward u.mem n b.index = some j)
      (isCon : (u.mem i).tag = .CON) (apart : i ≠ j) (same : u.mem i = u.mem j)
      (pushed : argPairs (u.merge i j []).mem n a b (u.mem i).arity = some pairs) :
      Turns u a b true (u.merge i j pairs)
  | other (apart : a ≠ b) (sameTag : a.tag = b.tag)
      (rest : a.tag = .DAT ∨ a.tag = .FWD) : Turns u a b true u

theorem boundPair_spec {a b r v : Cell} (pair : boundPair a b = some (r, v)) :
    (r = a ∧ v = b ∨ r = b ∧ v = a) ∧ r.tag.isRef = true ∧ r ≠ v := by
  unfold boundPair at pair
  split_ifs at pair with same isRef both isRef'
  all_goals obtain ⟨rfl, rfl⟩ := Prod.mk.inj (Option.some.inj pair)
  · exact ⟨.inr ⟨rfl, rfl⟩, both.1, Ne.symm same⟩
  · exact ⟨.inl ⟨rfl, rfl⟩, isRef, same⟩
  · exact ⟨.inr ⟨rfl, rfl⟩, isRef', Ne.symm same⟩

theorem boundPair_none {a b : Cell} (notRef : a.tag.isRef = false)
    (notRef' : b.tag.isRef = false) : boundPair a b = none := by
  simp only [boundPair, notRef, notRef', Bool.false_eq_true, if_false, ite_self]

theorem turn_turns {n : ℕ} {u u' : Unifier} {a b : Cell} {more : Bool}
    (ran : turn n u a b = some (more, u')) :
    ∃ a' b', deref u.mem n a = some a' ∧ deref u.mem n b = some b' ∧ Turns u a' b' more u' := by
  obtain ⟨a', atA, ran⟩ := Option.bind_eq_some_iff.1 ran
  obtain ⟨b', atB, ran⟩ := Option.bind_eq_some_iff.1 ran
  refine ⟨a', b', atA, atB, ?_⟩
  by_cases same : a' = b'
  · rw [if_pos same] at ran
    obtain ⟨rfl, rfl⟩ := Prod.mk.inj (Option.some.inj ran)
    exact .equal same
  rw [if_neg same] at ran
  have pair : boundPair a' b' = if a'.tag.isRef then
      if b'.tag.isRef ∧ a'.index < b'.index then some (b', a') else some (a', b')
      else if b'.tag.isRef then some (b', a') else none := if_neg same
  by_cases isRef : a'.tag.isRef = true
  · simp only [isRef, if_true] at ran pair
    by_cases isRef' : b'.tag.isRef = true
    · simp only [isRef', if_true, true_and] at ran pair
      by_cases lower : a'.index < b'.index
      · simp only [lower, if_true] at ran pair
        split_ifs at ran with watched
        all_goals obtain ⟨rfl, rfl⟩ := Prod.mk.inj (Option.some.inj ran)
        · exact .bind b' a' _ pair (.inr ⟨watched, isRef, rfl⟩)
        · exact .bind b' a' _ pair (.inl rfl)
      · simp only [lower, if_false] at ran pair
        split_ifs at ran with watched
        all_goals obtain ⟨rfl, rfl⟩ := Prod.mk.inj (Option.some.inj ran)
        · exact .bind a' b' _ pair (.inr ⟨watched, isRef', rfl⟩)
        · exact .bind a' b' _ pair (.inl rfl)
    · simp only [isRef', if_false, Bool.false_eq_true, false_and] at ran pair
      obtain ⟨rfl, rfl⟩ := Prod.mk.inj (Option.some.inj ran)
      exact .bind a' b' _ pair (.inl rfl)
  rw [if_neg isRef] at ran pair
  rw [Bool.not_eq_true] at isRef
  by_cases isRef' : b'.tag.isRef = true
  · rw [if_pos isRef'] at ran pair
    obtain ⟨rfl, rfl⟩ := Prod.mk.inj (Option.some.inj ran)
    exact .bind b' a' _ pair (.inl rfl)
  rw [if_neg isRef'] at ran
  rw [Bool.not_eq_true] at isRef'
  by_cases tags : a'.tag = b'.tag
  · rw [if_neg (not_not.2 tags)] at ran
    cases tag : a'.tag with
    | CON =>
      rw [tag] at ran
      obtain ⟨rfl, rfl⟩ := Prod.mk.inj (Option.some.inj ran)
      exact .clash same isRef isRef' (.inr (.inl tag))
    | INT =>
      rw [tag] at ran
      obtain ⟨rfl, rfl⟩ := Prod.mk.inj (Option.some.inj ran)
      exact .clash same isRef isRef' (.inr (.inr tag))
    | STR =>
      rw [tag] at ran
      obtain ⟨i, leads, ran⟩ := Option.bind_eq_some_iff.1 ran
      obtain ⟨j, leads', ran⟩ := Option.bind_eq_some_iff.1 ran
      by_cases isCon : (u.mem i).tag = .CON
      · rw [if_neg (not_not.2 isCon)] at ran
        by_cases linked : i = j
        · rw [if_pos linked] at ran
          obtain ⟨rfl, rfl⟩ := Prod.mk.inj (Option.some.inj ran)
          exact .linked n i tag (tags ▸ tag) leads (linked ▸ leads')
        · rw [if_neg linked] at ran
          by_cases functors : u.mem i = u.mem j
          · rw [if_neg (not_not.2 functors)] at ran
            obtain ⟨pairs, pushed, ran⟩ := Option.bind_eq_some_iff.1 ran
            obtain ⟨rfl, rfl⟩ := Prod.mk.inj (Option.some.inj ran)
            exact .merge n i j pairs tag (tags ▸ tag) leads leads' isCon linked functors pushed
          · rw [if_pos functors] at ran
            obtain ⟨rfl, rfl⟩ := Prod.mk.inj (Option.some.inj ran)
            exact .functors n i j tag (tags ▸ tag) leads leads' isCon functors
      · rw [if_pos isCon] at ran
        exact nomatch ran
    | BIG =>
      rw [tag] at ran
      obtain ⟨rfl, rfl⟩ := Prod.mk.inj (Option.some.inj ran)
      exact .big tag (tags ▸ tag)
    | DAT =>
      rw [tag] at ran
      obtain ⟨rfl, rfl⟩ := Prod.mk.inj (Option.some.inj ran)
      exact .other same tags (.inl tag)
    | FWD =>
      rw [tag] at ran
      obtain ⟨rfl, rfl⟩ := Prod.mk.inj (Option.some.inj ran)
      exact .other same tags (.inr tag)
    | REF | RFW =>
      rw [tag] at isRef
      exact absurd isRef (by decide)
  · rw [if_pos tags] at ran
    obtain ⟨rfl, rfl⟩ := Prod.mk.inj (Option.some.inj ran)
    exact .clash same isRef isRef' (.inl tags)

theorem turn_some {n : ℕ} {u : Unifier} {a b a' b' : Cell} (atA : deref u.mem n a = some a')
    (atB : deref u.mem n b = some b') (structures : a'.tag = .STR → b'.tag = .STR → ∃ i j,
      forward u.mem n a'.index = some i ∧ forward u.mem n b'.index = some j ∧
      (u.mem i).tag = .CON ∧ (i ≠ j → u.mem i = u.mem j →
        ∃ pairs, argPairs (u.merge i j []).mem n a' b' (u.mem i).arity = some pairs)) :
    ∃ out, turn n u a b = some out := by
  unfold turn
  rw [atA, atB]
  simp only [Option.bind_eq_bind, Option.bind_some]
  by_cases same : a' = b'
  · rw [if_pos same]
    exact ⟨_, rfl⟩
  rw [if_neg same]
  by_cases isRef : a'.tag.isRef = true
  · rw [if_pos isRef]
    by_cases isRef' : b'.tag.isRef = true
    · rw [if_pos isRef']
      by_cases lower : a'.index < b'.index
      · rw [if_pos lower]
        exact ⟨_, rfl⟩
      · rw [if_neg lower]
        exact ⟨_, rfl⟩
    · rw [if_neg isRef']
      exact ⟨_, rfl⟩
  rw [if_neg isRef]
  by_cases isRef' : b'.tag.isRef = true
  · rw [if_pos isRef']
    exact ⟨_, rfl⟩
  rw [if_neg isRef']
  by_cases tags : a'.tag = b'.tag
  · rw [if_neg (not_not.2 tags)]
    cases tag : a'.tag with
    | STR =>
      obtain ⟨i, j, leads, leads', isCon, pushed⟩ := structures tag (tags ▸ tag)
      dsimp only
      rw [leads, leads']
      simp only [Option.bind_some]
      rw [if_neg (not_not.2 isCon)]
      by_cases linked : i = j
      · rw [if_pos linked]
        exact ⟨_, rfl⟩
      rw [if_neg linked]
      by_cases functors : u.mem i = u.mem j
      · rw [if_neg (not_not.2 functors)]
        obtain ⟨pairs, pushed⟩ := pushed linked functors
        rw [pushed]
        exact ⟨_, rfl⟩
      · rw [if_pos functors]
        exact ⟨_, rfl⟩
    | CON | INT | BIG | DAT | FWD | REF | RFW => exact ⟨_, rfl⟩
  · rw [if_pos tags]
    exact ⟨_, rfl⟩

end Turns

section Fuel

variable {mem : ℕ → Cell}

theorem forward_lasting (i : ℕ) : Lasting fun n => forward mem n i := by
  intro n m j more found
  dsimp only at found ⊢
  induction n generalizing m i with
  | zero => exact nomatch found
  | succ n ih =>
    obtain ⟨m, rfl⟩ : ∃ k, m = k + 1 := ⟨m - 1, by omega⟩
    unfold forward at found ⊢
    split_ifs at found ⊢
    · exact ih _ m (by omega) found
    · exact found

theorem argPairs_lasting (s t : Cell) (arity : ℕ) : Lasting fun n => argPairs mem n s t arity := by
  intro n m pairs more found
  apply mapM_eq_some.2
  refine (mapM_eq_some.1 found).imp fun i p pushed => ?_
  obtain ⟨a, atA, pushed⟩ := Option.bind_eq_some_iff.1 pushed
  obtain ⟨b, atB, pushed⟩ := Option.bind_eq_some_iff.1 pushed
  exact Option.bind_eq_some_iff.2 ⟨a, arg_lasting mem s i n m a more atA,
    Option.bind_eq_some_iff.2 ⟨b, arg_lasting mem t i n m b more atB, pushed⟩⟩

theorem turn_lasting (u : Unifier) (a b : Cell) : Lasting fun n => turn n u a b := by
  intro n m r more ran
  obtain ⟨a', atA, ran⟩ := Option.bind_eq_some_iff.1 ran
  obtain ⟨b', atB, ran⟩ := Option.bind_eq_some_iff.1 ran
  refine Option.bind_eq_some_iff.2 ⟨a', deref_lasting u.mem a n m a' more atA, ?_⟩
  refine Option.bind_eq_some_iff.2 ⟨b', deref_lasting u.mem b n m b' more atB, ?_⟩
  by_cases same : a' = b'
  · rw [if_pos same] at ran ⊢
    exact ran
  rw [if_neg same] at ran ⊢
  by_cases isRef : a'.tag.isRef = true
  · rw [if_pos isRef] at ran ⊢
    exact ran
  rw [if_neg isRef] at ran ⊢
  by_cases isRef' : b'.tag.isRef = true
  · rw [if_pos isRef'] at ran ⊢
    exact ran
  rw [if_neg isRef'] at ran ⊢
  by_cases tags : a'.tag = b'.tag
  · rw [if_neg (not_not.2 tags)] at ran ⊢
    cases tag : a'.tag with
    | STR =>
      rw [tag] at ran
      obtain ⟨i, leads, ran⟩ := Option.bind_eq_some_iff.1 ran
      obtain ⟨j, leads', ran⟩ := Option.bind_eq_some_iff.1 ran
      refine Option.bind_eq_some_iff.2 ⟨i, forward_lasting a'.index n m i more leads, ?_⟩
      refine Option.bind_eq_some_iff.2 ⟨j, forward_lasting b'.index n m j more leads', ?_⟩
      by_cases isCon : (u.mem i).tag = .CON
      · rw [if_neg (not_not.2 isCon)] at ran ⊢
        by_cases linked : i = j
        · rw [if_pos linked] at ran ⊢
          exact ran
        · rw [if_neg linked] at ran ⊢
          by_cases functors : u.mem i = u.mem j
          · rw [if_neg (not_not.2 functors)] at ran ⊢
            obtain ⟨pairs, pushed, ran⟩ := Option.bind_eq_some_iff.1 ran
            exact Option.bind_eq_some_iff.2
              ⟨pairs, argPairs_lasting a' b' _ n m pairs more pushed, ran⟩
          · rw [if_pos functors] at ran ⊢
            exact ran
      · rw [if_pos isCon] at ran
        exact nomatch ran
    | CON | INT | BIG | DAT | FWD | REF | RFW =>
      rw [tag] at ran
      exact ran
  · rw [if_pos tags] at ran ⊢
    exact ran

theorem unifyLoop_lasting (u : Unifier) : Lasting fun n => unifyLoop n u := by
  intro n m r more ran
  dsimp only at ran ⊢
  induction n generalizing m u with
  | zero => exact nomatch ran
  | succ n ih =>
    obtain ⟨m, rfl⟩ : ∃ k, m = k + 1 := ⟨m - 1, by omega⟩
    unfold unifyLoop at ran ⊢
    split at ran
    · exact ran
    · obtain ⟨⟨goes, u'⟩, turned, ran⟩ := Option.bind_eq_some_iff.1 ran
      refine Option.bind_eq_some_iff.2 ⟨(goes, u'), turn_lasting _ _ _ n m _ (by omega) turned, ?_⟩
      dsimp only at ran ⊢
      split_ifs at ran ⊢
      · exact ih u' m (by omega) ran
      · exact ran

end Fuel

section Reached

/-- The states that the loop comes to, one turn after the other -/
inductive Reached (u : Unifier) : Unifier → Prop
  | refl : Reached u u
  | turn {u' u'' : Unifier} {n : ℕ} {a b : Cell} {stack : List (Cell × Cell)}
      (before : Reached u u') (popped : u'.stack = (a, b) :: stack)
      (ran : turn n { u' with stack := stack } a b = some (true, u'')) : Reached u u''

theorem Reached.head {u u' u'' : Unifier} {n : ℕ} {a b : Cell} {stack : List (Cell × Cell)}
    (popped : u.stack = (a, b) :: stack)
    (ran : Unify.turn n { u with stack := stack } a b = some (true, u')) (later : Reached u' u'') :
    Reached u u'' := by
  induction later with
  | refl => exact .turn .refl popped ran
  | turn _ popped' ran' ih => exact .turn ih popped' ran'

theorem Reached.uncons {u w : Unifier} (later : Reached u w) :
    w = u ∨ ∃ n a b stack u', u.stack = (a, b) :: stack ∧
      Unify.turn n { u with stack := stack } a b = some (true, u') ∧ Reached u' w := by
  induction later with
  | refl => exact .inl rfl
  | @turn w₁ w₂ n a b stack _ popped ran ih =>
    rcases ih with rfl | ⟨n', a', b', stack', u', popped', ran', later⟩
    · exact .inr ⟨n, a, b, stack, w₂, popped, ran, .refl⟩
    · exact .inr ⟨n', a', b', stack', u', popped', ran', .turn later popped ran⟩

end Reached

end Epilog.Common.Unify
