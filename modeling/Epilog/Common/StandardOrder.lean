/- Module: Epilog/Common/StandardOrder
   source: src/src/common/term_env.cpp (equal, functor_standard_order, standard_order),
     src/src/common/term.cpp (big_equal, big_compare)
   digest: The comparison of terms, and for which terms it is a total order. -/

import Epilog.Common.Unification
import Epilog.Lib.WordOrder
import Epilog.Node.InConnection

set_option autoImplicit false

namespace Epilog.Common.StandardOrder

open Epilog.Common.Term Epilog.Common.Heap Epilog.Common.TermWalk Epilog.Common.Unify
  Epilog.Common.HeapTrees Epilog.Common.Unification Epilog.Lib.Fuel Epilog.Lib.WordOrder
open Epilog.Node.InConnection (intValue)

section Source

/-- What one turn of a comparison comes to. -/
inductive Turn (ρ : Type)
  | answer (result : ρ)
  | push (pairs : List (Cell × Cell))

/-- The loop of `equal` and `standard_order` over the pairs on the stack above the depth `d` at
the start; `turn` takes two different cells. -/
def compareLoop {ρ : Type} (mem : ℕ → Cell) (turn : ℕ → Cell → Cell → Option (Turn ρ)) (done : ρ) :
    (fuel : ℕ) → List (Cell × Cell) → Option ρ
  | 0, _ => none
  | _ + 1, [] => some done
  | fuel + 1, (a, b) :: stack => do
    let a ← deref mem fuel a
    let b ← deref mem fuel b
    if a = b then compareLoop mem turn done fuel stack
    else
      match ← turn fuel a b with
      | .answer result => some result
      | .push pairs => compareLoop mem turn done fuel (pairs ++ stack)

def bigEqual (mem : ℕ → Cell) (big1 big2 : Cell) : Bool := bigBytes mem big1 = bigBytes mem big2

/-- The loop of `big_compare` over the bytes -/
def compareBytes : List ℕ → List ℕ → ℤ
  | [], _ => 0
  | _ :: _, [] => 1
  | byte1 :: rest1, byte2 :: rest2 =>
    if byte1 < byte2 then -1 else if byte1 > byte2 then 1 else compareBytes rest1 rest2

def bigCompare (mem : ℕ → Cell) (big1 big2 : Cell) : ℤ :=
  let (bits1, bytes1) := bigBytes mem big1
  let (bits2, bytes2) := bigBytes mem big2
  if bits1 ≠ bits2 then if bits1 < bits2 then -1 else 1 else compareBytes bytes1 bytes2

variable (env : TermEnv)

/-- One turn of the loop of `equal` -/
def equalTurn (fuel : ℕ) (a b : Cell) : Option (Turn Bool) :=
  if a.tag ≠ b.tag then some (.answer false)
  else if a.tag = .BIG then
    if bigEqual env.mem a b then some (.push []) else some (.answer false)
  else if a.tag ≠ .STR then some (.answer false)
  else do
    let fa ← functor env.mem a
    let fb ← functor env.mem b
    if fa ≠ fb then return .answer false
    let pairs ← argPairs env.mem fuel a b fa.arity
    return .push pairs

def equal (fuel : ℕ) (a b : Cell) : Option Bool :=
  compareLoop env.mem (equalTurn env) true fuel [(a, b)]

variable (compare : Bytes → Bytes → ℤ)

/-- `functor_standard_order`, where `compare` is that of `std::string`. -/
def functorStandardOrder (a b : Cell) : ℤ :=
  if a = b then 0
  else if a.arity < b.arity then -1
  else if a.arity > b.arity then 1
  else compare (atomName env a) (atomName env b)

/-- One turn of the loop of `standard_order` -/
def orderTurn (fuel : ℕ) (a b : Cell) : Option (Turn ℤ) :=
  if a.tag ≠ b.tag then some (.answer (if a.tag.code < b.tag.code then -1 else 1))
  else
    match a.tag with
    | .CON => some (.answer (if functorStandardOrder env compare a b < 0 then -1 else 1))
    | .REF | .RFW => some (.answer (if a.index < b.index then -1 else 1))
    | .INT => some (.answer (if intValue a < intValue b then -1 else 1))
    | .BIG =>
      let v := bigCompare env.mem a b
      if v ≠ 0 then some (.answer v)
      -- the stack is trimmed before `continue`, which therefore ends the loop
      else some (.answer 0)
    | _ => do
      let fa ← functor env.mem a
      let fb ← functor env.mem b
      if fa ≠ fb then return .answer (functorStandardOrder env compare fa fb)
      let pairs ← argPairs env.mem fuel a b fa.arity
      return .push pairs

def standardOrder (fuel : ℕ) (a b : Cell) : Option ℤ :=
  compareLoop env.mem (orderTurn env compare) 0 fuel [(a, b)]

end Source

section Lasting

variable {ρ : Type} {mem : ℕ → Cell} {turn : ℕ → Cell → Cell → Option (Turn ρ)} {done : ρ}

theorem compareLoop_lasting (lasting : ∀ a b, Lasting fun n => turn n a b)
    (stack : List (Cell × Cell)) : Lasting fun n => compareLoop mem turn done n stack := by
  refine lasting_of_succ fun n result found => ?_
  induction n generalizing stack with
  | zero => cases found
  | succ n ih =>
    cases stack with
    | nil => exact found
    | cons pair stack =>
      obtain ⟨a, b⟩ := pair
      obtain ⟨a', first, found⟩ := Option.bind_eq_some_iff.1 found
      obtain ⟨b', second, found⟩ := Option.bind_eq_some_iff.1 found
      refine Option.bind_eq_some_iff.2 ⟨a', deref_lasting mem a n _ a' n.le_succ first, ?_⟩
      refine Option.bind_eq_some_iff.2 ⟨b', deref_lasting mem b n _ b' n.le_succ second, ?_⟩
      split_ifs at found ⊢ with same
      · exact ih _ found
      · obtain ⟨t, taken, found⟩ := Option.bind_eq_some_iff.1 found
        refine Option.bind_eq_some_iff.2 ⟨t, lasting a' b' n _ t n.le_succ taken, ?_⟩
        cases t with
        | answer r => exact found
        | push pairs => exact ih _ found

variable {env : TermEnv} {compare : Bytes → Bytes → ℤ}

theorem equalTurn_lasting (a b : Cell) : Lasting fun n => equalTurn env n a b := by
  unfold equalTurn
  refine .ite (.const _) (.ite (.const _) (.ite (.const _) ?_))
  refine (Lasting.const _).bind fun fa => (Lasting.const _).bind fun fb => .ite (.const _) ?_
  exact (argPairs_lasting a b _).bind fun pairs => .const _

theorem orderTurn_lasting (a b : Cell) : Lasting fun n => orderTurn env compare n a b := by
  unfold orderTurn
  refine .ite (.const _) ?_
  have structures : Lasting fun n => (functor env.mem a).bind fun fa =>
      (functor env.mem b).bind fun fb =>
        if fa ≠ fb then some (Turn.answer (functorStandardOrder env compare fa fb))
        else (argPairs env.mem n a b fa.arity).bind fun pairs => some (.push pairs) := by
    refine (Lasting.const _).bind fun fa => (Lasting.const _).bind fun fb => .ite (.const _) ?_
    exact (argPairs_lasting a b _).bind fun pairs => .const _
  cases a.tag with
  | CON => exact .const _
  | REF => exact .const _
  | RFW => exact .const _
  | INT => exact .const _
  | BIG => exact .const _
  | STR => exact structures
  | DAT => exact structures
  | FWD => exact structures

end Lasting
section Words

/-- What the comparison sees of a cell: a bignum with its cell, a structure without. -/
inductive Letter
  | plain (d : Cell)
  | big (d : Cell) (number : ℕ × List ℕ)
  | str (f : Cell)
  deriving DecidableEq

variable (mem : ℕ → Cell)

def letterOf (d : Cell) : Letter :=
  if d.tag = .STR then .str (mem d.index)
  else if d.tag = .BIG then .big d (bigBytes mem d)
  else .plain d

def argsOf (d : Cell) : List Cell := if d.tag = .STR then args mem d (mem d.index) else []

/-- A variable, a constant, a number, or a structure with a functor. -/
structure TermCell (d : Cell) : Prop where
  notDat : d.tag ≠ .DAT
  notFwd : d.tag ≠ .FWD
  isCon : d.tag = .STR → (mem d.index).tag = .CON

/-- A term that is no cyclic one. -/
inductive FiniteTerm : Cell → Prop
  | node {c d : Cell} (derefs : Derefs mem c d) (isTerm : TermCell mem d)
      (finite : ∀ a ∈ argsOf mem d, FiniteTerm a) : FiniteTerm c

/-- The letters of some terms, each before those of its arguments. -/
inductive Spells : List Cell → List Letter → Prop
  | nil : Spells [] []
  | cons {c d : Cell} {cs : List Cell} {w : List Letter} (derefs : Derefs mem c d)
      (isTerm : TermCell mem d) (rest : Spells (argsOf mem d ++ cs) w) :
      Spells (c :: cs) (letterOf mem d :: w)

variable {mem} {c d : Cell} {cs ds : List Cell} {w v : List Letter}

theorem Spells.append (first : Spells mem cs w) (second : Spells mem ds v) :
    Spells mem (cs ++ ds) (w ++ v) := by
  induction first with
  | nil => exact second
  | cons derefs isTerm rest ih =>
    refine .cons derefs isTerm ?_
    rw [List.append_assoc] at ih
    exact ih

theorem FiniteTerm.spells (finite : FiniteTerm mem c) : ∃ w, Spells mem [c] w := by
  induction finite with
  | node derefs isTerm finite ih =>
    rename_i c d
    have all : ∀ as : List Cell, (∀ a ∈ as, a ∈ argsOf mem d) → ∃ w, Spells mem as w := by
      intro as
      induction as with
      | nil => exact fun _ => ⟨[], .nil⟩
      | cons a as ih' =>
        intro inside
        obtain ⟨w, first⟩ := ih a (inside a List.mem_cons_self)
        obtain ⟨v, rest⟩ := ih' fun x member => inside x (List.mem_cons_of_mem a member)
        exact ⟨w ++ v, first.append rest⟩
    obtain ⟨w, spelt⟩ := all (argsOf mem d) fun _ member => member
    exact ⟨_, .cons derefs isTerm (by rwa [List.append_nil])⟩

/-- The second term has the value of the first. -/
def SameValue (mem : ℕ → Cell) (c d : Cell) : Prop := ∀ x, Derefs mem c x → Derefs mem d x

theorem sameValue_refl (cs : List Cell) : List.Forall₂ (SameValue mem) cs cs :=
  List.forall₂_same.2 fun _ _ _ derefs => derefs

theorem Spells.congr (spelt : Spells mem cs w) (same : List.Forall₂ (SameValue mem) cs ds) :
    Spells mem ds w := by
  induction spelt generalizing ds with
  | nil =>
    cases same
    exact .nil
  | cons derefs isTerm rest ih =>
    cases same with
    | cons head tail => exact .cons (head _ derefs) isTerm (ih (List.rel_append (sameValue_refl _) tail))

theorem Spells.unique (first : Spells mem cs w) (second : Spells mem cs v) : w = v := by
  induction first generalizing v with
  | nil =>
    cases second
    rfl
  | cons derefs isTerm rest ih =>
    cases second with
    | cons derefs' isTerm' rest' =>
      obtain rfl := derefs.unique derefs'
      rw [ih rest']

theorem Spells.derefs (spelt : Spells mem cs w) : ∀ c ∈ cs, ∃ d, Derefs mem c d := by
  induction spelt with
  | nil => exact fun _ inside => nomatch inside
  | cons derefs isTerm rest ih =>
    intro c inside
    obtain rfl | inside := List.mem_cons.1 inside
    · exact ⟨_, derefs⟩
    · exact ih c (List.mem_append_right _ inside)

theorem Spells.split (spelt : Spells mem (cs ++ ds) w) :
    ∃ u v, w = u ++ v ∧ Spells mem cs u ∧ Spells mem ds v := by
  generalize whole : cs ++ ds = all at spelt
  induction spelt generalizing cs with
  | nil =>
    obtain ⟨rfl, rfl⟩ := List.append_eq_nil_iff.1 whole
    exact ⟨[], [], rfl, .nil, .nil⟩
  | cons derefs isTerm rest ih =>
    cases cs with
    | nil =>
      rw [List.nil_append] at whole
      subst whole
      exact ⟨[], _, rfl, .nil, .cons derefs isTerm rest⟩
    | cons c cs =>
      obtain ⟨rfl, rfl⟩ := List.cons.inj whole
      obtain ⟨u, v, rfl, first, second⟩ := ih (List.append_assoc _ _ _)
      exact ⟨_ :: u, v, rfl, .cons derefs isTerm first, second⟩

end Words

section Scanning

variable {ρ : Type} {mem : ℕ → Cell} {turn : ℕ → Cell → Cell → Option (Turn ρ)} {done r : ρ}
  {a b d e : Cell} {stack pairs : List (Cell × Cell)} {w v : List Letter}

theorem letterOf_str (isStr : d.tag = .STR) : letterOf mem d = .str (mem d.index) := if_pos isStr

theorem letterOf_big (isBig : d.tag = .BIG) : letterOf mem d = .big d (bigBytes mem d) := by
  rw [letterOf, isBig, if_neg nofun, if_pos rfl]

theorem letterOf_plain (notStr : d.tag ≠ .STR) (notBig : d.tag ≠ .BIG) :
    letterOf mem d = .plain d := by
  rw [letterOf, if_neg notStr, if_neg notBig]

theorem argsOf_str (isStr : d.tag = .STR) : argsOf mem d = args mem d (mem d.index) := if_pos isStr

theorem argsOf_other (notStr : d.tag ≠ .STR) : argsOf mem d = [] := if_neg notStr

theorem str_of_letterOf (same : letterOf mem d = letterOf mem e) (apart : d ≠ e) :
    d.tag = .STR ∧ e.tag = .STR ∧ mem d.index = mem e.index := by
  unfold letterOf at same
  split_ifs at same with str str' big big'
  · exact ⟨str, str', Letter.str.inj same⟩
  · exact absurd (Letter.big.inj same).1 apart
  · exact absurd (Letter.plain.inj same) apart

theorem compareLoop_same (derefs : Derefs mem a d) (derefs' : Derefs mem b d)
    (lasting : ∀ a b, Lasting fun n => turn n a b)
    (rest : Finds (fun n => compareLoop mem turn done n stack) r) :
    Finds (fun n => compareLoop mem turn done n ((a, b) :: stack)) r := by
  obtain ⟨n, first⟩ := derefs
  obtain ⟨m, second⟩ := derefs'
  obtain ⟨k, rest⟩ := rest
  refine ⟨max (max n m) k + 1, ?_⟩
  have first := deref_lasting mem a n (max (max n m) k) d (by omega) first
  have second := deref_lasting mem b m (max (max n m) k) d (by omega) second
  have rest := compareLoop_lasting lasting stack k (max (max n m) k) r (by omega) rest
  dsimp only at first second rest ⊢
  rw [compareLoop, first, Option.bind_eq_bind, Option.bind_some, second, Option.bind_eq_bind,
    Option.bind_some, if_pos rfl, rest]

theorem compareLoop_answer (derefs : Derefs mem a d) (derefs' : Derefs mem b e) (apart : d ≠ e)
    (lasting : ∀ a b, Lasting fun n => turn n a b)
    (taken : Finds (fun n => turn n d e) (.answer r)) :
    Finds (fun n => compareLoop mem turn done n ((a, b) :: stack)) r := by
  obtain ⟨n, first⟩ := derefs
  obtain ⟨m, second⟩ := derefs'
  obtain ⟨k, taken⟩ := taken
  refine ⟨max (max n m) k + 1, ?_⟩
  have first := deref_lasting mem a n (max (max n m) k) d (by omega) first
  have second := deref_lasting mem b m (max (max n m) k) e (by omega) second
  have taken := lasting d e k (max (max n m) k) _ (by omega) taken
  dsimp only at first second taken ⊢
  rw [compareLoop, first, Option.bind_eq_bind, Option.bind_some, second, Option.bind_eq_bind,
    Option.bind_some, if_neg apart, taken]
  rfl

theorem compareLoop_push (derefs : Derefs mem a d) (derefs' : Derefs mem b e) (apart : d ≠ e)
    (lasting : ∀ a b, Lasting fun n => turn n a b)
    (taken : Finds (fun n => turn n d e) (.push pairs))
    (rest : Finds (fun n => compareLoop mem turn done n (pairs ++ stack)) r) :
    Finds (fun n => compareLoop mem turn done n ((a, b) :: stack)) r := by
  obtain ⟨n, first⟩ := derefs
  obtain ⟨m, second⟩ := derefs'
  obtain ⟨k, taken⟩ := taken
  obtain ⟨l, rest⟩ := rest
  refine ⟨max (max n m) (max k l) + 1, ?_⟩
  have first := deref_lasting mem a n (max (max n m) (max k l)) d (by omega) first
  have second := deref_lasting mem b m (max (max n m) (max k l)) e (by omega) second
  have taken := lasting d e k (max (max n m) (max k l)) _ (by omega) taken
  have rest := compareLoop_lasting lasting _ l (max (max n m) (max k l)) r (by omega) rest
  dsimp only at first second taken rest ⊢
  rw [compareLoop, first, Option.bind_eq_bind, Option.bind_some, second, Option.bind_eq_bind,
    Option.bind_some, if_neg apart, taken]
  exact rest

/-- The turns give the verdicts of the judge, and push the arguments of structures. -/
structure Judges (mem : ℕ → Cell) (turn : ℕ → Cell → Cell → Option (Turn ρ))
    (judge : Letter → Letter → Option ρ) : Prop where
  lasting : ∀ d e, Lasting fun n => turn n d e
  answers : ∀ {d e r}, TermCell mem d → TermCell mem e → letterOf mem d ≠ letterOf mem e →
    judge (letterOf mem d) (letterOf mem e) = some r → Finds (fun n => turn n d e) (.answer r)
  passes : ∀ {d e}, TermCell mem d → TermCell mem e → letterOf mem d ≠ letterOf mem e →
    judge (letterOf mem d) (letterOf mem e) = none →
      Finds (fun n => turn n d e) (.push []) ∧ argsOf mem d = [] ∧ argsOf mem e = []
  pushes : ∀ {d e pairs}, TermCell mem d → d.tag = .STR → e.tag = .STR →
    mem d.index = mem e.index →
      Finds (fun n => argPairs mem n d e (mem d.index).arity) pairs →
        Finds (fun n => turn n d e) (.push pairs)

theorem finds_argPairs {cs ds : List Cell} (isStr : d.tag = .STR) (isStr' : e.tag = .STR)
    (same : mem d.index = mem e.index) (spelt : Spells mem (argsOf mem d ++ cs) w)
    (spelt' : Spells mem (argsOf mem e ++ ds) v) :
    ∃ pairs, Finds (fun n => argPairs mem n d e (mem d.index).arity) pairs ∧
      List.Forall₂ (SameValue mem) (argsOf mem d) (pairs.map Prod.fst) ∧
      List.Forall₂ (SameValue mem) (argsOf mem e) (pairs.map Prod.snd) := by
  have fetched {s : Cell} (isStr : s.tag = .STR) {i : ℕ} {x : Cell}
      (derefs : Derefs mem (mem (s.index + i + 1)) x) : Finds (fun n => arg mem n s i) x :=
    finds_bind (deref_lasting mem s) (deref_lasting mem _) (derefs_value (str_not_ref isStr)) derefs
  have each : ∀ i ∈ List.range (mem d.index).arity, ∃ p, Finds (fun n =>
      (arg mem n d i).bind fun x => (arg mem n e i).bind fun y => some (x, y)) p := by
    intro i inside
    have derefs {s : Cell} {cs : List Cell} {w : List Letter} (isStr : s.tag = .STR)
        (functor : mem d.index = mem s.index) (spelt : Spells mem (argsOf mem s ++ cs) w) :
        ∃ x, Derefs mem (mem (s.index + i + 1)) x := by
      refine spelt.derefs _ (List.mem_append_left _ ?_)
      rw [argsOf_str isStr, args, ← functor]
      exact List.mem_map_of_mem inside
    obtain ⟨x, first⟩ := derefs isStr rfl spelt
    obtain ⟨y, second⟩ := derefs isStr' same spelt'
    refine ⟨(x, y), finds_bind (arg_lasting mem d i) ?_ (fetched isStr first) ?_⟩
    · exact (arg_lasting mem e i).bind fun y => .const _
    · exact finds_bind (arg_lasting mem e i) (.const _) (fetched isStr' second) ⟨0, rfl⟩
  obtain ⟨pairs, n, found⟩ := finds_mapM (fun i => (arg_lasting mem d i).bind fun x =>
    (arg_lasting mem e i).bind fun y => .const _) each
  have values := pushed_args found isStr isStr'
  refine ⟨pairs, ⟨n, found⟩, ?_, ?_⟩
  · rw [argsOf_str isStr, args, List.forall₂_map_left_iff, List.forall₂_map_right_iff]
    exact values.imp fun i p both x derefs => (both.1.unique derefs) ▸ both.1.self
  · rw [argsOf_str isStr', args, ← same, List.forall₂_map_left_iff, List.forall₂_map_right_iff]
    exact values.imp fun i p both x derefs => (both.2.unique derefs) ▸ both.2.self

variable {judge : Letter → Letter → Option ρ}

theorem Judges.finds_scan (judges : Judges mem turn judge) (k : ℕ) (short : w.length ≤ k)
    (spelt : Spells mem (stack.map Prod.fst) w) (spelt' : Spells mem (stack.map Prod.snd) v) :
    Finds (fun n => compareLoop mem turn done n stack) (scan judge done w v) := by
  induction k generalizing stack w v with
  | zero =>
    cases stack with
    | nil =>
      cases spelt
      cases spelt'
      exact ⟨1, rfl⟩
    | cons pair stack =>
      cases spelt
      cases short
  | succ k ih =>
    cases stack with
    | nil =>
      cases spelt
      cases spelt'
      exact ⟨1, rfl⟩
    | cons pair stack =>
      obtain ⟨a, b⟩ := pair
      rw [List.map_cons] at spelt spelt'
      cases spelt with
      | cons derefs isTerm rest =>
        rename_i d w
        cases spelt' with
        | cons derefs' isTerm' rest' =>
          rename_i e v
          rw [List.length_cons] at short
          rw [scan]
          by_cases equal : d = e
          · -- the cells are the same, and so are the words below them
            subst equal
            obtain ⟨u, w', rfl, first, second⟩ := rest.split
            obtain ⟨u', v', rfl, first', second'⟩ := rest'.split
            obtain rfl := first.unique first'
            rw [if_pos rfl, scan_append]
            refine compareLoop_same derefs derefs' judges.lasting (ih ?_ second second')
            rw [List.length_append] at short
            omega
          · by_cases same : letterOf mem d = letterOf mem e
            · obtain ⟨isStr, isStr', functors⟩ := str_of_letterOf same equal
              obtain ⟨pairs, pushed, values, values'⟩ :=
                finds_argPairs isStr isStr' functors rest rest'
              rw [if_pos same]
              refine compareLoop_push derefs derefs' equal judges.lasting
                (judges.pushes isTerm isStr isStr' functors pushed) (ih (by omega) ?_ ?_)
              · rw [List.map_append]
                exact rest.congr (List.rel_append values (sameValue_refl _))
              · rw [List.map_append]
                exact rest'.congr (List.rel_append values' (sameValue_refl _))
            · rw [if_neg same]
              cases verdict : judge (letterOf mem d) (letterOf mem e) with
              | some r =>
                exact compareLoop_answer derefs derefs' equal judges.lasting
                  (judges.answers isTerm isTerm' same verdict)
              | none =>
                obtain ⟨taken, bare, bare'⟩ := judges.passes isTerm isTerm' same verdict
                rw [bare] at rest
                rw [bare'] at rest'
                exact compareLoop_push derefs derefs' equal judges.lasting taken
                  (ih (by omega) rest rest')

end Scanning

section Judging

variable (env : TermEnv) (compare : Bytes → Bytes → ℤ)

/-- The tag of a letter, as `standard_order` compares it -/
def Letter.code : Letter → ℕ
  | .plain d => d.tag.code
  | .big _ _ => Tag.BIG.code
  | .str _ => Tag.STR.code

/-- `big_compare` of the numbers themselves -/
def compareNumbers (x y : ℕ × List ℕ) : ℤ :=
  if x.1 ≠ y.1 then if x.1 < y.1 then -1 else 1 else compareBytes x.2 y.2

/-- What `standard_order` answers at the first letters that differ. -/
def orderLetters (l l' : Letter) : ℤ :=
  if l.code ≠ l'.code then if l.code < l'.code then -1 else 1
  else
    match l, l' with
    | .plain c, .plain d =>
      if c.tag = .CON then if functorStandardOrder env compare c d < 0 then -1 else 1
      else if c.tag = .INT then if intValue c < intValue d then -1 else 1
      else if c.index < d.index then -1 else 1
    | .big _ x, .big _ y => compareNumbers x y
    | .str f, .str g => functorStandardOrder env compare f g
    | _, _ => 0

/-- A bignum without its cell -/
def forgetCell : Letter → Letter
  | .big _ x => .big noTerm x
  | l => l

variable {env compare} {d e : Cell}

theorem functor_str {mem : ℕ → Cell} (isTerm : TermCell mem d) (isStr : d.tag = .STR) :
    functor mem d = some (mem d.index) := if_pos (isTerm.isCon isStr)

theorem letterOf_code (mem : ℕ → Cell) (d : Cell) : (letterOf mem d).code = d.tag.code := by
  unfold letterOf
  split_ifs with str big
  · rw [str]
    rfl
  · rw [big]
    rfl
  · rfl

theorem code_inj {t t' : Tag} (same : t.code = t'.code) : t = t' := by
  rw [← Tag.ofCode_code t, same, Tag.ofCode_code]

theorem orderTurn_answer (fuel : ℕ) (isTerm : TermCell env.mem d) (isTerm' : TermCell env.mem e)
    (apart : letterOf env.mem d ≠ letterOf env.mem e) :
    orderTurn env compare fuel d e =
      some (.answer (orderLetters env compare (letterOf env.mem d) (letterOf env.mem e))) := by
  unfold orderTurn orderLetters
  rw [letterOf_code, letterOf_code]
  by_cases tags : d.tag = e.tag
  · rw [if_neg (not_not.2 tags), if_neg (not_not.2 (congrArg Tag.code tags))]
    cases tag : d.tag with
    | CON =>
      rw [letterOf_plain (by rw [tag]; nofun) (by rw [tag]; nofun),
        letterOf_plain (by rw [← tags, tag]; nofun) (by rw [← tags, tag]; nofun)]
      simp only [tag, if_true]
    | INT =>
      rw [letterOf_plain (by rw [tag]; nofun) (by rw [tag]; nofun),
        letterOf_plain (by rw [← tags, tag]; nofun) (by rw [← tags, tag]; nofun)]
      simp only [tag, reduceCtorEq, if_false, if_true]
    | REF =>
      rw [letterOf_plain (by rw [tag]; nofun) (by rw [tag]; nofun),
        letterOf_plain (by rw [← tags, tag]; nofun) (by rw [← tags, tag]; nofun)]
      simp only [tag, reduceCtorEq, if_false]
    | RFW =>
      rw [letterOf_plain (by rw [tag]; nofun) (by rw [tag]; nofun),
        letterOf_plain (by rw [← tags, tag]; nofun) (by rw [← tags, tag]; nofun)]
      simp only [tag, reduceCtorEq, if_false]
    | BIG =>
      rw [letterOf_big tag, letterOf_big (tags ▸ tag)]
      have numbers : compareNumbers (bigBytes env.mem d) (bigBytes env.mem e) =
          bigCompare env.mem d e := rfl
      dsimp only
      rw [numbers]
      split_ifs with zero
      · rfl
      · rw [not_not.1 zero]
    | STR =>
      rw [letterOf_str tag, letterOf_str (tags ▸ tag)] at apart ⊢
      have functors : env.mem d.index ≠ env.mem e.index := fun same => apart (congrArg _ same)
      rw [functor_str isTerm tag, functor_str isTerm' (tags ▸ tag)]
      simp only [Option.bind_eq_bind, Option.bind_some, if_pos functors]
      rfl
    | DAT => exact absurd tag isTerm.notDat
    | FWD => exact absurd tag isTerm.notFwd
  · have codes : d.tag.code ≠ e.tag.code := fun same => tags (code_inj same)
    rw [if_pos tags, if_pos codes]

end Judging
section Judges

variable {env : TermEnv} {compare : Bytes → Bytes → ℤ} {a b d e : Cell} {w v : List Letter}
  {pairs : List (Cell × Cell)}

theorem functor_same {mem : ℕ → Cell} (isTerm : TermCell mem d) (isStr : d.tag = .STR)
    (same : mem d.index = mem e.index) : functor mem e = some (mem d.index) := by
  rw [functor, ← same, if_pos (isTerm.isCon isStr)]

theorem judges_order : Judges env.mem (orderTurn env compare)
    fun l l' => some (orderLetters env compare l l') where
  lasting := orderTurn_lasting
  answers isTerm isTerm' apart verdict := by
    refine ⟨0, (orderTurn_answer 0 isTerm isTerm' apart).trans ?_⟩
    rw [Option.some.inj verdict]
  passes _ _ _ verdict := nomatch verdict
  pushes isTerm isStr isStr' same pushed := by
    rename_i d e pairs
    obtain ⟨n, pushed⟩ := pushed
    refine ⟨n, ?_⟩
    dsimp only at pushed ⊢
    unfold orderTurn
    rw [if_neg (not_not.2 (isStr.trans isStr'.symm)), isStr, functor_str isTerm isStr,
      functor_same isTerm isStr same]
    simp only [Option.bind_eq_bind, Option.bind_some, ne_eq, not_true_eq_false, if_false, pushed]
    rfl

theorem refuse_eq_none {l l' : Letter} :
    refuse forgetCell l l' = none ↔ forgetCell l = forgetCell l' := by
  unfold refuse
  split_ifs with same
  · exact iff_of_true rfl same
  · exact iff_of_false nofun same

theorem refuse_eq_some {l l' : Letter} {r : Bool} :
    refuse forgetCell l l' = some r ↔ forgetCell l ≠ forgetCell l' ∧ r = false := by
  unfold refuse
  split_ifs with same
  · exact iff_of_false nofun fun both => both.1 same
  · exact ⟨fun found => ⟨same, (Option.some.inj found).symm⟩, fun both => congrArg some both.2.symm⟩

theorem forgetCell_eq_iff {mem : ℕ → Cell} (apart : letterOf mem d ≠ letterOf mem e) :
    forgetCell (letterOf mem d) = forgetCell (letterOf mem e) ↔
      d.tag = .BIG ∧ e.tag = .BIG ∧ bigBytes mem d = bigBytes mem e := by
  unfold letterOf at apart ⊢
  split_ifs at apart ⊢ <;> simp_all [forgetCell]

theorem judges_equal : Judges env.mem (equalTurn env) (refuse forgetCell) where
  lasting := equalTurn_lasting
  answers {d e r} isTerm isTerm' apart verdict := by
    obtain ⟨differ, rfl⟩ := refuse_eq_some.1 verdict
    rw [ne_eq, forgetCell_eq_iff apart] at differ
    refine ⟨0, ?_⟩
    dsimp only
    unfold equalTurn
    split_ifs with tags big same str
    · rfl
    · exact absurd ⟨big, (not_not.1 tags) ▸ big, of_decide_eq_true same⟩ differ
    · rfl
    · rfl
    · have str := not_not.1 str
      have str' : e.tag = .STR := (not_not.1 tags) ▸ str
      rw [letterOf_str str, letterOf_str str'] at apart
      have functors : env.mem d.index ≠ env.mem e.index := fun same => apart (congrArg _ same)
      rw [functor_str isTerm str, functor_str isTerm' str']
      simp only [Option.bind_eq_bind, Option.bind_some, if_pos functors]
      rfl
  passes {d e} _ _ apart verdict := by
    obtain ⟨big, big', same⟩ := (forgetCell_eq_iff apart).1 (refuse_eq_none.1 verdict)
    refine ⟨⟨0, ?_⟩, argsOf_other (by rw [big]; nofun), argsOf_other (by rw [big']; nofun)⟩
    dsimp only
    rw [equalTurn, if_neg (not_not.2 (big.trans big'.symm)), if_pos big, bigEqual,
      if_pos (decide_eq_true same)]
  pushes {d e pairs} isTerm isStr isStr' same pushed := by
    obtain ⟨n, pushed⟩ := pushed
    refine ⟨n, ?_⟩
    dsimp only at pushed ⊢
    rw [equalTurn, if_neg (not_not.2 (isStr.trans isStr'.symm)), if_neg (by rw [isStr]; nofun),
      if_neg (not_not.2 isStr), functor_str isTerm isStr, functor_same isTerm isStr same]
    simp only [Option.bind_eq_bind, Option.bind_some, ne_eq, not_true_eq_false, if_false, pushed]
    rfl

end Judges

section Results

variable {env : TermEnv} {compare : Bytes → Bytes → ℤ} {a b d e : Cell} {cs ds : List Cell}
  {w v : List Letter}

theorem length_argsOf {mem : ℕ → Cell}
    (same : forgetCell (letterOf mem d) = forgetCell (letterOf mem e)) :
    (argsOf mem d).length = (argsOf mem e).length := by
  by_cases equal : letterOf mem d = letterOf mem e
  · by_cases cells : d = e
    · rw [cells]
    · obtain ⟨str, str', functors⟩ := str_of_letterOf equal cells
      rw [argsOf_str str, argsOf_str str', args, args, functors, List.length_map, List.length_map]
  · obtain ⟨big, big', -⟩ := (forgetCell_eq_iff equal).1 same
    rw [argsOf_other (by rw [big]; nofun), argsOf_other (by rw [big']; nofun)]

theorem Spells.whole {γ : Type} [DecidableEq γ] {mem : ℕ → Cell} (f : Letter → γ)
    (lengths : ∀ d e, f (letterOf mem d) = f (letterOf mem e) →
      (argsOf mem d).length = (argsOf mem e).length)
    (spelt : Spells mem cs w) (spelt' : Spells mem ds v) (length : cs.length = ds.length)
    (none_ : firstDiff (w.map f) (v.map f) = none) : w.map f = v.map f := by
  induction spelt generalizing ds v with
  | nil =>
    cases spelt' with
    | nil => rfl
    | cons => cases length
  | cons derefs isTerm rest ih =>
    cases spelt' with
    | nil => cases length
    | cons derefs' isTerm' rest' =>
      rw [List.map_cons, List.map_cons, firstDiff_cons] at none_
      split_ifs at none_ with same
      rw [List.map_cons, List.map_cons, same, ih rest' ?_ none_]
      rw [List.length_append, List.length_append, lengths _ _ same]
      exact congrArg _ (Nat.succ.inj length)

theorem finds_order (spelt : Spells env.mem [a] w) (spelt' : Spells env.mem [b] v) :
    Finds (fun n => standardOrder env compare n a b)
      ((firstDiff w v).elim 0 fun x => orderLetters env compare x.1 x.2) := by
  have found : Finds (fun n => standardOrder env compare n a b)
      (scan (fun l l' => some (orderLetters env compare l l')) 0 w v) :=
    judges_order.finds_scan w.length le_rfl spelt spelt'
  rwa [scan_some] at found

theorem finds_equal (spelt : Spells env.mem [a] w) (spelt' : Spells env.mem [b] v) :
    Finds (fun n => equal env n a b) (w.map forgetCell = v.map forgetCell) := by
  have found : Finds (fun n => equal env n a b) (scan (refuse forgetCell) true w v) :=
    judges_equal.finds_scan w.length le_rfl spelt spelt'
  have same : scan (refuse forgetCell) true w v = true ↔ w.map forgetCell = v.map forgetCell := by
    rw [scan_refuse]
    constructor
    · exact spelt.whole forgetCell (fun _ _ => length_argsOf) spelt' rfl
    · intro words
      rw [words, firstDiff_self]
  have value : scan (refuse forgetCell) true w v = decide (w.map forgetCell = v.map forgetCell) := by
    rw [Bool.eq_iff_iff, same, decide_eq_true_eq]
  rwa [value] at found

end Results

section Keys

variable (env : TermEnv)

/-- The bytes of a name as numbers -/
def nameKey (f : Cell) : List ℕ := f.arity :: (atomName env f).map UInt8.toNat

/-- Where a letter stands in the order. -/
def Letter.key (l : Letter) : List ℕ :=
  l.code ::
    match l with
    | .plain c =>
      if c.tag = .CON then nameKey env c
      else if c.tag = .INT then [(intValue c + 2 ^ 60).toNat]
      else [c.index]
    | .big _ x => x.1 :: x.2
    | .str f => nameKey env f

variable (compare : Bytes → Bytes → ℤ)

/-- The functors or constants differ in what `functor_standard_order` looks at, and for functors
it answers with -1 or 1. -/
def Apart : Letter → Letter → Prop
  | .plain c, .plain d =>
    c.tag = .CON → d.tag = .CON → c.arity = d.arity → atomName env c ≠ atomName env d
  | .str f, .str g =>
    f.arity = g.arity → (compare (atomName env f) (atomName env g)).natAbs = 1 ∧
      (compare (atomName env g) (atomName env f)).natAbs = 1
  | _, _ => True

variable {env compare} {mem : ℕ → Cell} {d e f g : Cell}

theorem key_forgetCell (l : Letter) : (forgetCell l).key env = l.key env := by
  cases l <;> rfl

theorem compareBytes_eq {xs ys : List ℕ} (length : xs.length = ys.length) :
    compareBytes xs ys = orderSign xs ys := by
  induction xs generalizing ys with
  | nil =>
    cases ys with
    | nil => rfl
    | cons y ys => cases length
  | cons x xs ih =>
    cases ys with
    | nil => cases length
    | cons y ys =>
      rw [compareBytes, orderSign_cons]
      rcases lt_trichotomy x y with less | rfl | more
      · rw [if_pos less, if_neg less.ne, orderSign_of_lt less]
      · rw [if_neg (lt_irrefl x), if_neg (lt_irrefl x), if_pos rfl, ih (Nat.succ.inj length)]
      · rw [if_neg (lt_asymm more), if_pos more, if_neg more.ne', orderSign_of_gt more]

theorem compareNumbers_eq : compareNumbers (bigBytes mem d) (bigBytes mem e) =
    orderSign ((bigBytes mem d).1 :: (bigBytes mem d).2)
      ((bigBytes mem e).1 :: (bigBytes mem e).2) := by
  rw [compareNumbers, orderSign_cons]
  by_cases bits : (bigBytes mem d).1 = (bigBytes mem e).1
  · rw [if_neg (not_not.2 bits), if_pos bits, compareBytes_eq]
    simp only [bigBytes] at bits ⊢
    rw [List.length_map, List.length_map, List.length_range, List.length_range, bits]
  · rw [if_pos bits, if_neg bits, ite_lt_eq bits]

theorem functorStandardOrder_sign (lexicographic : ∀ x y, (compare x y).sign =
      orderSign (x.map UInt8.toNat) (y.map UInt8.toNat)) (apart : f ≠ g) :
    (functorStandardOrder env compare f g).sign = orderSign (nameKey env f) (nameKey env g) := by
  rw [functorStandardOrder, if_neg apart, nameKey, nameKey, orderSign_cons]
  rcases lt_trichotomy f.arity g.arity with less | same | more
  · rw [if_pos less, if_neg less.ne, orderSign_of_lt less]
    rfl
  · rw [if_neg same.not_lt, if_neg same.not_gt, if_pos same, lexicographic]
  · rw [if_neg (lt_asymm more), if_pos more, if_neg more.ne', orderSign_of_gt more]
    rfl

theorem bmod_inj {x y : ℕ} (small : x < 2 ^ 61) (small' : y < 2 ^ 61)
    (same : (x : ℤ).bmod (2 ^ 61) = (y : ℤ).bmod (2 ^ 61)) : x = y := by
  rw [Int.bmod_def, Int.bmod_def] at same
  norm_num at small small' same
  split_ifs at same <;> omega

theorem cell_ext (tags : d.tag = e.tag) (values : d.value = e.value) : d = e := by
  rw [← Cell.make_tag_value d, ← Cell.make_tag_value e, tags, values]

theorem intValue_inj (tags : d.tag = e.tag) (apart : d ≠ e) : intValue d ≠ intValue e :=
  fun same => apart (cell_ext tags (bmod_inj d.value_lt e.value_lt same))

theorem neg_le_intValue (c : Cell) : -2 ^ 60 ≤ intValue c := by
  have bound := Int.le_bmod (x := (c.value : ℤ)) (m := 2 ^ 61) (by norm_num)
  exact le_trans (by norm_num) bound

end Keys

section Letters

variable {env : TermEnv} {compare : Bytes → Bytes → ℤ} {d e : Cell}

theorem functorStandardOrder_eq (lexicographic : ∀ x y, (compare x y).sign =
      orderSign (x.map UInt8.toNat) (y.map UInt8.toNat)) {f g : Cell} (functors : f ≠ g)
    (apart : Apart env compare (.str f) (.str g)) :
    functorStandardOrder env compare f g = orderSign (nameKey env f) (nameKey env g) := by
  have unit : (functorStandardOrder env compare f g).natAbs = 1 := by
    rw [functorStandardOrder, if_neg functors]
    split_ifs with less more
    · rfl
    · rfl
    · exact (apart (by omega)).1
  have sign : _ = orderSign (nameKey env f) _ := functorStandardOrder_sign lexicographic functors
  have whole := Int.sign_mul_natAbs (functorStandardOrder env compare f g)
  rw [← whole, unit, sign, Nat.cast_one, mul_one]

theorem orderSign_intValue (c d : Cell) :
    orderSign [(intValue c + 2 ^ 60).toNat] [(intValue d + 2 ^ 60).toNat] =
      orderSign (intValue c) (intValue d) := by
  have low := neg_le_intValue c
  have low' := neg_le_intValue d
  rw [orderSign_singleton]
  rcases lt_trichotomy (intValue c) (intValue d) with less | same | more
  · rw [orderSign_of_lt less, orderSign_of_lt (by omega)]
  · rw [same, orderSign_self, orderSign_self]
  · rw [orderSign_of_gt more, orderSign_of_gt (by omega)]

theorem orderLetters_eq (lexicographic : ∀ x y, (compare x y).sign =
      orderSign (x.map UInt8.toNat) (y.map UInt8.toNat))
    (differ : letterOf env.mem d ≠ letterOf env.mem e)
    (apart : Apart env compare (letterOf env.mem d) (letterOf env.mem e)) :
    orderLetters env compare (letterOf env.mem d) (letterOf env.mem e) =
      orderSign ((letterOf env.mem d).key env) ((letterOf env.mem e).key env) := by
  unfold orderLetters Letter.key
  rw [orderSign_cons, letterOf_code, letterOf_code]
  by_cases codes : d.tag.code = e.tag.code
  swap
  · rw [if_pos codes, if_neg codes, ite_lt_eq codes]
  have tags := code_inj codes
  rw [if_neg (not_not.2 codes), if_pos codes]
  by_cases str : d.tag = .STR
  · rw [letterOf_str str, letterOf_str (tags ▸ str)] at differ apart ⊢
    have functors : env.mem d.index ≠ env.mem e.index := fun same => differ (congrArg _ same)
    exact functorStandardOrder_eq lexicographic functors apart
  by_cases big : d.tag = .BIG
  · rw [letterOf_big big, letterOf_big (tags ▸ big)]
    exact compareNumbers_eq
  rw [letterOf_plain str big, letterOf_plain (tags ▸ str) (tags ▸ big)] at differ apart ⊢
  have cells : d ≠ e := fun same => differ (congrArg _ same)
  dsimp only
  rw [← tags]
  by_cases con : d.tag = .CON
  · rw [if_pos con, if_pos con, if_pos con]
    have sign : _ = orderSign (nameKey env d) _ := functorStandardOrder_sign lexicographic cells
    have ranks : nameKey env d ≠ nameKey env e := by
      intro same
      obtain ⟨arity, names⟩ := List.cons.inj same
      refine apart con (tags ▸ con) arity (List.map_injective_iff.2 ?_ names)
      exact fun x y => UInt8.toNat_inj.1
    rcases lt_or_gt_of_ne ranks with less | more
    · rw [orderSign_of_lt less] at sign ⊢
      rw [if_pos (Int.sign_eq_neg_one_iff_neg.1 sign)]
    · rw [orderSign_of_gt more] at sign ⊢
      rw [if_neg (not_lt.2 (Int.sign_eq_one_iff_pos.1 sign).le)]
  rw [if_neg con, if_neg con, if_neg con]
  by_cases int : d.tag = .INT
  · rw [if_pos int, if_pos int, if_pos int, orderSign_intValue, ite_lt_eq (intValue_inj tags cells)]
  · rw [if_neg int, if_neg int, if_neg int, orderSign_singleton, ite_lt_eq]
    exact fun same => cells (cell_ext tags same)

end Letters

section Claim

variable {env : TermEnv} {compare : Bytes → Bytes → ℤ} {a b c d e : Cell} {w v : List Letter}

theorem orderLetters_ne_zero (differ : letterOf env.mem d ≠ letterOf env.mem e)
    (apart : Apart env compare (letterOf env.mem d) (letterOf env.mem e))
    (zero : orderLetters env compare (letterOf env.mem d) (letterOf env.mem e) = 0) :
    forgetCell (letterOf env.mem d) = forgetCell (letterOf env.mem e) := by
  unfold orderLetters at zero
  rw [letterOf_code, letterOf_code] at zero
  by_cases codes : d.tag.code = e.tag.code
  swap
  · rw [if_pos codes] at zero
    split_ifs at zero
    cases zero
  have tags := code_inj codes
  rw [if_neg (not_not.2 codes)] at zero
  by_cases str : d.tag = .STR
  · rw [letterOf_str str, letterOf_str (tags ▸ str)] at differ apart zero ⊢
    have functors : env.mem d.index ≠ env.mem e.index := fun same => differ (congrArg _ same)
    dsimp only at zero
    rw [functorStandardOrder, if_neg functors] at zero
    by_cases arity : (env.mem d.index).arity = (env.mem e.index).arity
    · have unit := (apart arity).1
      rw [if_neg arity.not_lt, if_neg arity.not_gt] at zero
      rw [zero] at unit
      cases unit
    · rcases lt_or_gt_of_ne arity with less | more
      · rw [if_pos less] at zero
        cases zero
      · rw [if_neg (lt_asymm more), if_pos more] at zero
        cases zero
  by_cases big : d.tag = .BIG
  · rw [letterOf_big big, letterOf_big (tags ▸ big)] at zero ⊢
    dsimp only at zero
    rw [compareNumbers_eq, orderSign_eq_zero] at zero
    obtain ⟨bits, bytes⟩ := List.cons.inj zero
    exact congrArg (Letter.big noTerm) (Prod.ext bits bytes)
  rw [letterOf_plain str big, letterOf_plain (tags ▸ str) (tags ▸ big)] at zero
  dsimp only at zero
  split_ifs at zero <;> cases zero

theorem Spells.letter {mem : ℕ → Cell} {cs : List Cell} (spelt : Spells mem cs w) :
    ∀ l ∈ w, ∃ d, TermCell mem d ∧ l = letterOf mem d := by
  induction spelt with
  | nil => exact fun _ inside => nomatch inside
  | cons derefs isTerm rest ih =>
    intro l inside
    obtain rfl | inside := List.mem_cons.1 inside
    · exact ⟨_, isTerm, rfl⟩
    · exact ih l inside

/-- The first difference of two words lets the comparison be right. -/
def Clear (env : TermEnv) (compare : Bytes → Bytes → ℤ) (w v : List Letter) : Prop :=
  ∀ l l', firstDiff w v = some (l, l') → Apart env compare l l' ∧
    (forgetCell l = forgetCell l' → w.map forgetCell = v.map forgetCell)

theorem eq_of_firstDiff {mem : ℕ → Cell} (spelt : Spells mem [a] w) (spelt' : Spells mem [b] v)
    (none_ : firstDiff w v = none) : w = v := by
  have whole := spelt.whole id (fun d e same => length_argsOf (congrArg forgetCell same)) spelt' rfl
  rw [List.map_id, List.map_id] at whole
  exact whole none_

theorem order_eq (lexicographic : ∀ x y, (compare x y).sign =
      orderSign (x.map UInt8.toNat) (y.map UInt8.toNat))
    (spelt : Spells env.mem [a] w) (spelt' : Spells env.mem [b] v) (clear : Clear env compare w v) :
    ((firstDiff w v).elim 0 fun x => orderLetters env compare x.1 x.2) =
      orderSign (w.map (Letter.key env)) (v.map (Letter.key env)) := by
  cases found : firstDiff w v with
  | none =>
    rw [eq_of_firstDiff spelt spelt' found, orderSign_self]
    rfl
  | some x =>
    obtain ⟨l, l'⟩ := x
    obtain ⟨apart, numbers⟩ := clear l l' found
    have differ := firstDiff_ne found
    obtain ⟨inside, inside'⟩ := firstDiff_mem found
    obtain ⟨d, -, rfl⟩ := spelt.letter l inside
    obtain ⟨e, -, rfl⟩ := spelt'.letter l' inside'
    have answer := orderLetters_eq lexicographic differ apart
    rw [Option.elim_some]
    by_cases keys : (letterOf env.mem d).key env = (letterOf env.mem e).key env
    · rw [keys, orderSign_self] at answer
      have same := numbers (orderLetters_ne_zero differ apart answer)
      have words : w.map (Letter.key env) = v.map (Letter.key env) := by
        have images := congrArg (List.map (Letter.key env)) same
        rw [List.map_map, List.map_map] at images
        simpa only [Function.comp_def, key_forgetCell] using images
      rw [answer, words, orderSign_self]
    · rw [orderSign_map _ found keys, answer]

variable (env compare)

/-- The comparison of two terms as it should be: -1, 0 or 1, the opposite the other way round, and
0 exactly for terms that are equal. -/
def Orderly (a b : Cell) : Prop :=
  ∃ v v' e, Finds (fun n => standardOrder env compare n a b) v ∧
    Finds (fun n => standardOrder env compare n b a) v' ∧ Finds (fun n => equal env n a b) e ∧
    (v = -1 ∨ v = 0 ∨ v = 1) ∧ v' = -v ∧ (v = 0 ↔ e = true)

/-- The comparisons of three terms as they should be. -/
structure TotalOn (a b c : Cell) : Prop where
  first : Orderly env compare a b
  second : Orderly env compare b c
  third : Orderly env compare a c
  trans : ∀ x y z, Finds (fun n => standardOrder env compare n a b) x →
    Finds (fun n => standardOrder env compare n b c) y →
    Finds (fun n => standardOrder env compare n a c) z → x ≤ 0 → y ≤ 0 →
      z ≤ 0 ∧ (z = 0 → x = 0 ∧ y = 0)

/-- Where the terms differ first, there are no two bignums of the same value followed by a
difference, no two constants of the same arity and name, and no two functors of the same arity
whose names `compare` tells apart by more than 1, or not at all. -/
def Separated (a b : Cell) : Prop :=
  ∃ w v, Spells env.mem [a] w ∧ Spells env.mem [b] v ∧ Clear env compare w v

variable {env compare}

theorem order_lasting (a b : Cell) : Lasting fun n => standardOrder env compare n a b :=
  compareLoop_lasting orderTurn_lasting _

theorem equal_lasting (a b : Cell) : Lasting fun n => equal env n a b :=
  compareLoop_lasting equalTurn_lasting _

theorem apart_swap {l l' : Letter} (apart : Apart env compare l l') : Apart env compare l' l := by
  cases l <;> cases l' <;> try trivial
  · exact fun con con' arity => (apart con' con arity.symm).symm
  · exact fun arity => (apart arity.symm).symm

theorem Clear.symm (clear : Clear env compare w v) : Clear env compare v w := by
  intro l l' found
  rw [firstDiff_swap w v, Option.map_eq_some_iff] at found
  obtain ⟨⟨m, m'⟩, found, same⟩ := found
  cases same
  obtain ⟨apart, numbers⟩ := clear m m' found
  exact ⟨apart_swap apart, fun same => (numbers same.symm).symm⟩

theorem apart_of_orderly (lexicographic : ∀ x y, (compare x y).sign =
      orderSign (x.map UInt8.toNat) (y.map UInt8.toNat)) {l l' : Letter} (differ : l ≠ l')
    (range : orderLetters env compare l l' = -1 ∨ orderLetters env compare l l' = 0 ∨
      orderLetters env compare l l' = 1)
    (opposite : orderLetters env compare l' l = -orderLetters env compare l l')
    (zero : orderLetters env compare l l' = 0 → forgetCell l = forgetCell l') :
    Apart env compare l l' := by
  cases l with
  | big d x => cases l' <;> trivial
  | str f =>
    cases l' with
    | plain d => trivial
    | big d x => trivial
    | str g =>
      intro arity
      have functors : f ≠ g := fun same => differ (congrArg _ same)
      have answer : ∀ {f g : Cell}, f ≠ g → f.arity = g.arity →
          orderLetters env compare (.str f) (.str g) =
            compare (atomName env f) (atomName env g) := by
        intro f g functors arity
        unfold orderLetters
        rw [if_neg (show ¬ (Letter.str f).code ≠ (Letter.str g).code from not_not.2 rfl)]
        dsimp only
        rw [functorStandardOrder, if_neg functors, if_neg arity.not_lt, if_neg arity.not_gt]
      rw [answer functors arity] at range opposite zero
      rw [answer functors.symm arity.symm] at opposite
      have nonzero : compare (atomName env f) (atomName env g) ≠ 0 :=
        fun none_ => functors (Letter.str.inj (zero none_))
      omega
  | plain c =>
    cases l' with
    | big d x => trivial
    | str g => trivial
    | plain d =>
      intro con con' arity names
      have cells : c ≠ d := fun same => differ (congrArg _ same)
      have answer : ∀ {c d : Cell}, c ≠ d → c.tag = .CON → d.tag = .CON → c.arity = d.arity →
          atomName env c = atomName env d →
            orderLetters env compare (.plain c) (.plain d) = 1 := by
        intro c d cells con con' arity names
        have sign := lexicographic (atomName env d) (atomName env d)
        rw [orderSign_self, Int.sign_eq_zero_iff_zero] at sign
        unfold orderLetters
        rw [Letter.code, Letter.code, con, con', if_neg (not_not.2 rfl)]
        dsimp only
        rw [if_pos con, functorStandardOrder, if_neg cells, if_neg arity.not_lt,
          if_neg arity.not_gt, names, sign]
        rfl
      rw [answer cells con con' arity names, answer cells.symm con' con arity.symm names.symm]
        at opposite
      cases opposite

theorem orderly_iff (lexicographic : ∀ x y, (compare x y).sign =
      orderSign (x.map UInt8.toNat) (y.map UInt8.toNat))
    (spelt : Spells env.mem [a] w) (spelt' : Spells env.mem [b] v) :
    Orderly env compare a b ↔ Clear env compare w v := by
  have order : Finds (fun n => standardOrder env compare n a b) _ := finds_order spelt spelt'
  have order' : Finds (fun n => standardOrder env compare n b a) _ := finds_order spelt' spelt
  have equals := finds_equal spelt spelt'
  constructor
  · rintro ⟨x, x', e, at_, at', atE, range, opposite, zero⟩
    obtain rfl := at_.unique (order_lasting a b) order
    obtain rfl := at'.unique (order_lasting b a) order'
    obtain rfl := atE.unique (equal_lasting a b) equals
    intro l l' found
    have found' : firstDiff v w = some (l', l) := by
      rw [firstDiff_swap w v, found]
      rfl
    rw [found, found'] at opposite
    rw [found] at range zero
    rw [decide_eq_true_eq] at zero
    have differ := firstDiff_ne found
    refine ⟨apart_of_orderly lexicographic differ range opposite fun none_ => ?_, fun same => ?_⟩
    · exact firstDiff_map found (zero.1 none_)
    · obtain ⟨inside, inside'⟩ := firstDiff_mem found
      obtain ⟨d, -, rfl⟩ := spelt.letter l inside
      obtain ⟨e, -, rfl⟩ := spelt'.letter l' inside'
      obtain ⟨big, big', numbers⟩ := (forgetCell_eq_iff differ).1 same
      refine zero.1 ?_
      rw [Option.elim_some]
      unfold orderLetters
      rw [letterOf_code, letterOf_code, big, big', if_neg (not_not.2 rfl), letterOf_big big,
        letterOf_big big']
      dsimp only
      rw [compareNumbers_eq, numbers, orderSign_self]
  · intro clear
    have value := order_eq lexicographic spelt spelt' clear
    have value' := order_eq lexicographic spelt' spelt clear.symm
    refine ⟨_, _, _, order, order', equals, ?_, ?_, ?_⟩
    · rw [value]
      exact orderSign_mem _ _
    · rw [value, value', orderSign_swap]
    · rw [value, orderSign_eq_zero, decide_eq_true_eq]
      constructor
      · intro keys
        rw [← orderSign_eq_zero, ← value] at keys
        cases found : firstDiff w v with
        | none => rw [eq_of_firstDiff spelt spelt' found]
        | some x =>
          obtain ⟨l, l'⟩ := x
          rw [found] at keys
          obtain ⟨apart, numbers⟩ := clear l l' found
          obtain ⟨inside, inside'⟩ := firstDiff_mem found
          obtain ⟨d, -, rfl⟩ := spelt.letter l inside
          obtain ⟨e, -, rfl⟩ := spelt'.letter l' inside'
          exact numbers (orderLetters_ne_zero (firstDiff_ne found) apart keys)
      · intro same
        have images := congrArg (List.map (Letter.key env)) same
        rw [List.map_map, List.map_map] at images
        simpa only [Function.comp_def, key_forgetCell] using images

theorem separated_iff (spelt : Spells env.mem [a] w) (spelt' : Spells env.mem [b] v) :
    Separated env compare a b ↔ Clear env compare w v := by
  constructor
  · rintro ⟨w', v', first, second, clear⟩
    rwa [spelt.unique first, spelt'.unique second]
  · exact fun clear => ⟨w, v, spelt, spelt', clear⟩

/-- For finite terms the comparison is a total order up to `equal` exactly where each two of them
are separated. Of `compare` only the sign is promised. -/
theorem standard_order_total_iff (env : TermEnv) (compare : Bytes → Bytes → ℤ)
    (lexicographic : ∀ x y, (compare x y).sign =
      orderSign (x.map UInt8.toNat) (y.map UInt8.toNat))
    {a b c : Cell} (finite_a : FiniteTerm env.mem a) (finite_b : FiniteTerm env.mem b)
    (finite_c : FiniteTerm env.mem c) : TotalOn env compare a b c ↔
      Separated env compare a b ∧ Separated env compare b c ∧ Separated env compare a c := by
  obtain ⟨u, speltA⟩ := finite_a.spells
  obtain ⟨v, speltB⟩ := finite_b.spells
  obtain ⟨w, speltC⟩ := finite_c.spells
  rw [separated_iff speltA speltB, separated_iff speltB speltC, separated_iff speltA speltC,
    ← orderly_iff lexicographic speltA speltB, ← orderly_iff lexicographic speltB speltC,
    ← orderly_iff lexicographic speltA speltC]
  constructor
  · exact fun total => ⟨total.first, total.second, total.third⟩
  · rintro ⟨first, second, third⟩
    refine ⟨first, second, third, fun x y z atX atY atZ before before' => ?_⟩
    have value {a b : Cell} {w v : List Letter} {x : ℤ} (spelt : Spells env.mem [a] w)
        (spelt' : Spells env.mem [b] v) (orderly : Orderly env compare a b)
        (found : Finds (fun n => standardOrder env compare n a b) x) :
        x = orderSign (w.map (Letter.key env)) (v.map (Letter.key env)) := by
      rw [← order_eq lexicographic spelt spelt' ((orderly_iff lexicographic spelt spelt').1 orderly)]
      exact found.unique (order_lasting a b) (finds_order spelt spelt')
    rw [value speltA speltB first atX, orderSign_nonpos] at before
    rw [value speltB speltC second atY, orderSign_nonpos] at before'
    rw [value speltA speltB first atX, value speltB speltC second atY,
      value speltA speltC third atZ, orderSign_nonpos, orderSign_eq_zero, orderSign_eq_zero,
      orderSign_eq_zero]
    refine ⟨before.trans before', fun same => ?_⟩
    have between := le_antisymm before (before'.trans same.ge)
    exact ⟨between, between ▸ same⟩

/-- Two structures with bignums of the same value before different constants. -/
def sample : TermEnv where
  mem i :=
    if i = 10 ∨ i = 20 then Cell.conOfName (Cell.ascii "f") 2
    else if i = 11 then Cell.make .BIG 30
    else if i = 12 then Cell.conOfName (Cell.ascii "a") 0
    else if i = 21 then Cell.make .BIG 31
    else if i = 22 then Cell.conOfName (Cell.ascii "b") 0
    else Cell.make .DAT (7 * 2 ^ 29 + 8)
  size := 40
  atomIndexToName := ∅
  atomNameToIndex := ∅
  varNames := ∅

/-- The names as `std::string` compares them, up to the size of the answer. -/
def nameCompare (x y : Bytes) : ℤ := orderSign (x.map UInt8.toNat) (y.map UInt8.toNat)

theorem nameCompare_sign (x y : Bytes) :
    (nameCompare x y).sign = orderSign (x.map UInt8.toNat) (y.map UInt8.toNat) := by
  unfold nameCompare
  rcases orderSign_mem (x.map UInt8.toNat) (y.map UInt8.toNat) with same | same | same <;>
    rw [same] <;> rfl

theorem finite_leaf {mem : ℕ → Cell} (isLeaf : c.tag = .CON ∨ c.tag = .INT ∨ c.tag = .BIG) :
    FiniteTerm mem c := by
  have kinds : c.tag.isRef = false ∧ c.tag ≠ .STR ∧ c.tag ≠ .DAT ∧ c.tag ≠ .FWD := by
    rcases isLeaf with tag | tag | tag <;> rw [tag] <;> decide
  obtain ⟨notRef, notStr, notDat, notFwd⟩ := kinds
  refine .node (derefs_value notRef) ⟨notDat, notFwd, fun isStr => absurd isStr notStr⟩ ?_
  rw [argsOf_other notStr]
  nofun

theorem sample_finite {x : ℕ} (here : x = 10 ∨ x = 20) :
    FiniteTerm sample.mem (Cell.make .STR x) := by
  have tags : (Cell.make .STR x).tag = .STR := Cell.tag_make _ _
  have functor : sample.mem (Cell.make .STR x).index = Cell.conOfName (Cell.ascii "f") 2 ∧
      (sample.mem (x + 1)).tag = .BIG ∧ (sample.mem (x + 2)).tag = .CON ∧
      args sample.mem (Cell.make .STR x) (Cell.conOfName (Cell.ascii "f") 2) =
        [sample.mem (x + 1), sample.mem (x + 2)] := by
    rcases here with rfl | rfl <;> decide
  obtain ⟨label, big, con, below⟩ := functor
  refine .node (derefs_value (by rw [tags]; rfl)) ⟨by rw [tags]; nofun, by rw [tags]; nofun,
    fun _ => by rw [label]; decide⟩ ?_
  rw [argsOf_str tags, label, below]
  intro a inside
  obtain rfl | rfl | inside := List.mem_cons.1 inside |>.imp id List.mem_cons.1
  · exact finite_leaf (.inr (.inr big))
  · exact finite_leaf (.inl con)
  · cases inside

theorem separated_of_tags (finite : FiniteTerm env.mem a) (finite' : FiniteTerm env.mem b)
    (derefs : Derefs env.mem a d) (derefs' : Derefs env.mem b e) (tags : d.tag ≠ e.tag) :
    Separated env compare a b := by
  obtain ⟨w, spelt⟩ := finite.spells
  obtain ⟨v, spelt'⟩ := finite'.spells
  refine ⟨w, v, spelt, spelt', fun l l' found => ?_⟩
  cases spelt with
  | cons derefs₁ isTerm rest =>
    cases spelt' with
    | cons derefs₂ isTerm' rest' =>
      obtain rfl := derefs.unique derefs₁
      obtain rfl := derefs'.unique derefs₂
      have codes : (letterOf env.mem d).code ≠ (letterOf env.mem e).code := by
        rw [letterOf_code, letterOf_code]
        exact fun same => tags (code_inj same)
      have differ : letterOf env.mem d ≠ letterOf env.mem e := fun same => codes (congrArg _ same)
      rw [firstDiff_cons, if_neg differ] at found
      cases found
      refine ⟨?_, fun same => ?_⟩
      · unfold letterOf at codes ⊢
        split_ifs at codes ⊢
        · exact absurd rfl codes
        · trivial
        · trivial
        · trivial
        · trivial
        · trivial
        · trivial
        · trivial
        · exact fun con con' => absurd (con.trans con'.symm) tags
      · obtain ⟨big, big', -⟩ := (forgetCell_eq_iff differ).1 same
        exact absurd (big.trans big'.symm) tags

/-- An integer, a bignum and a structure with a bignum. -/
theorem sample_total : TotalOn sample nameCompare (Cell.make .INT 1) (Cell.make .BIG 30)
    (Cell.make .STR 10) := by
  have own {t : Tag} {x : ℕ} (notRef : t.isRef = false) :
      Derefs sample.mem (Cell.make t x) (Cell.make t x) :=
    derefs_value (by rw [Cell.tag_make]; exact notRef)
  have int : FiniteTerm sample.mem (Cell.make .INT 1) := finite_leaf (.inr (.inl (Cell.tag_make _ _)))
  have big : FiniteTerm sample.mem (Cell.make .BIG 30) :=
    finite_leaf (.inr (.inr (Cell.tag_make _ _)))
  have str := sample_finite (.inl rfl)
  refine (standard_order_total_iff sample nameCompare nameCompare_sign int big str).2 ⟨?_, ?_, ?_⟩
  · exact separated_of_tags int big (own rfl) (own rfl) (by rw [Cell.tag_make, Cell.tag_make]; nofun)
  · exact separated_of_tags big str (own rfl) (own rfl) (by rw [Cell.tag_make, Cell.tag_make]; nofun)
  · exact separated_of_tags int str (own rfl) (own rfl) (by rw [Cell.tag_make, Cell.tag_make]; nofun)

/-- The two structures compare as 0 and are not equal. -/
theorem sample_not_total : FiniteTerm sample.mem (Cell.make .STR 10) ∧
    FiniteTerm sample.mem (Cell.make .STR 20) ∧
    ¬ TotalOn sample nameCompare (Cell.make .STR 10) (Cell.make .STR 20) (Cell.make .STR 20) := by
  refine ⟨sample_finite (.inl rfl), sample_finite (.inr rfl), fun total => ?_⟩
  obtain ⟨v, v', e, order, -, equals, -, -, zero⟩ := total.first
  have order' : Finds (fun n => standardOrder sample nameCompare n (Cell.make .STR 10)
      (Cell.make .STR 20)) 0 := ⟨9, by decide⟩
  have equals' : Finds (fun n => equal sample n (Cell.make .STR 10) (Cell.make .STR 20)) false :=
    ⟨9, by decide⟩
  rw [order.unique (order_lasting _ _) order', equals.unique (equal_lasting _ _) equals'] at zero
  exact nomatch zero.1 rfl

end Claim


end Epilog.Common.StandardOrder
