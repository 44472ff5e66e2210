/- Module: Epilog/Interp/HeapTrim
   source: src/src/interp/interpreter_base.hpp (trim_heap_safe, heap_limit, heap_limit_term,
     get_frozen_closures, set_frozen_closure, clear_frozen_closure), src/src/interp/builtins.cpp
     (freeze_2), src/src/common/term.cpp (internal_trim)
   digest: Trimming the heap: what lies below the limiter, and what a trim may cut off. -/

import Epilog.Global.FrozenRange
import Epilog.Interp.FrozenGoals
import Epilog.Lib.AddressRange
import Epilog.Lib.StepRuns

set_option autoImplicit false

namespace Epilog.Interp.HeapTrim

open Epilog.Common.Term Epilog.Common.Heap Epilog.Common.TermWalk Epilog.Lib.FiniteMap
  Epilog.Lib.Fuel Epilog.Lib.Run Epilog.Lib.StepRuns Epilog.Lib.AddressRange
  Epilog.Global.FrozenRange Epilog.Interp.Coroutines

section Reach

variable (mem : ℕ → Cell)

/-- The addresses that a cell refers to: a variable, a functor with its arguments, or the header
of a bignum with its data. -/
def cellsOf (c : Cell) : List ℕ :=
  match c.tag with
  | .REF | .RFW => [c.index]
  | .STR =>
    List.range' c.index (match functor mem c with
      | some f => f.arity + 1
      | none => 1)
  | .BIG => List.range' c.index (mem c.index).numCells
  | _ => []

/-- The addresses that a term depends on; the data cells of a bignum refer to nothing. -/
inductive Reaches : Cell → ℕ → Prop
  | here {c : Cell} {a : ℕ} (own : a ∈ cellsOf mem c) : Reaches c a
  | inside {c : Cell} {a b : ℕ} (own : a ∈ cellsOf mem c) (notBig : c.tag ≠ .BIG)
      (rest : Reaches (mem a) b) : Reaches c b

variable {mem} {mem' : ℕ → Cell} {c : Cell} {a b : ℕ}

theorem cellsOf_ref (isRef : c.tag.isRef = true) : cellsOf mem c = [c.index] := by
  unfold Tag.isRef at isRef
  rw [decide_eq_true_eq] at isRef
  unfold cellsOf
  rcases isRef with plain | watched
  · rw [plain]
  · rw [watched]

theorem cellsOf_str {f : Cell} (isStr : c.tag = .STR) (atFunctor : functor mem c = some f) :
    cellsOf mem c = List.range' c.index (f.arity + 1) := by
  unfold cellsOf
  rw [isStr]
  dsimp only
  rw [atFunctor]

theorem cellsOf_big (isBig : c.tag = .BIG) :
    cellsOf mem c = List.range' c.index (mem c.index).numCells := by
  unfold cellsOf
  rw [isBig]

theorem index_mem_cellsOf (own : a ∈ cellsOf mem c) : c.index ∈ cellsOf mem' c := by
  revert own
  unfold cellsOf
  cases c.tag <;> dsimp only
  case REF | RFW => exact fun _ => List.mem_singleton_self _
  case BIG =>
    intro _
    have pos := (mem' c.index).numCells_pos
    exact List.mem_range'_1.2 ⟨le_rfl, by omega⟩
  case STR =>
    intro _
    refine List.mem_range'_1.2 ⟨le_rfl, ?_⟩
    split <;> omega
  all_goals exact fun own => nomatch own

theorem cellsOf_congr (refers : Refers mem mem' c.index) : cellsOf mem' c = cellsOf mem c := by
  have size : (mem' c.index).numCells = (mem c.index).numCells := by
    unfold Cell.numCells Cell.numHalfCells Cell.numBits
    rw [show (mem' c.index).value = (mem c.index).value from refers.index]
  have atFunctor : functor mem' c = functor mem c := by
    unfold functor
    rcases refers with same | ⟨isRef, isRef', _⟩
    · rw [same]
    · rw [if_neg, if_neg]
      · intro con
        rw [con] at isRef
        exact nomatch isRef
      · intro con
        rw [con] at isRef'
        exact nomatch isRef'
  unfold cellsOf
  rw [size, atFunctor]

theorem reaches_iff_of_refers {m : ℕ → Cell} {x : ℕ} (refers : Refers mem mem' x) :
    Reaches m (mem' x) b ↔ Reaches m (mem x) b := by
  have turn : ∀ {d d' : Cell}, d.tag.isRef = true → d'.tag.isRef = true → d'.index = d.index →
      Reaches m d' b → Reaches m d b := by
    intro d d' isRef isRef' index reaches
    have cells : cellsOf m d' = cellsOf m d := by
      rw [cellsOf_ref isRef, cellsOf_ref isRef', index]
    cases reaches with
    | here own => exact .here (cells ▸ own)
    | inside own _ rest =>
      refine .inside (cells ▸ own) ?_ rest
      intro isBig
      rw [isBig] at isRef
      exact nomatch isRef
  rcases refers with same | ⟨isRef, isRef', index⟩
  · rw [same]
  · exact ⟨turn isRef isRef' index, turn isRef' isRef index.symm⟩

theorem Reaches.congr (reaches : Reaches mem' c b)
    (refers : ∀ a, Reaches mem c a → Refers mem mem' a) : Reaches mem c b := by
  have cells : ∀ {d : Cell} {x : ℕ}, (∀ a, Reaches mem d a → Refers mem mem' a) →
      x ∈ cellsOf mem' d → x ∈ cellsOf mem d := by
    intro d x refers own
    rwa [cellsOf_congr (refers _ (.here (index_mem_cellsOf own)))] at own
  induction reaches with
  | here own => exact .here (cells refers own)
  | inside own notBig rest ih =>
    have own' := cells refers own
    have here := refers _ (.here own')
    refine .inside own' notBig ((reaches_iff_of_refers here).1 (ih fun x reaches => ?_))
    exact refers x (.inside own' notBig ((reaches_iff_of_refers here).1 reaches))

end Reach

section Limit

variable (mem : ℕ → Cell)

/-- The bound that `heap_limit_term` asks for one subterm: behind the cells of a structure or a
bignum it leaves room for one more. -/
def limitOf (s : Cell) : ℕ :=
  match s.tag with
  | .STR => s.index + ((mem s.index).arity + 2)
  | .BIG => s.index + ((mem s.index).numCells + 1)
  | .REF | .RFW => s.index + 1
  | _ => 0

/-- The loop of `heap_limit_term` -/
def raisedLimit (fuel : ℕ) (t : Cell) (limiter : ℕ) : Except (Halt Empty) ℕ :=
  forEach mem (fun s hl => .ok (if limitOf mem s > hl then limitOf mem s else hl)) fuel t limiter

/-- The addresses of the bound variables that a term goes through. `heap_limit_term` visits what
they are bound to. -/
inductive Passes : Cell → ℕ → Prop
  | here {t : Cell} (isRef : t.tag.isRef = true) (bound : mem t.index ≠ t) : Passes t t.index
  | through {t : Cell} {a : ℕ} (isRef : t.tag.isRef = true) (bound : mem t.index ≠ t)
      (rest : Passes (mem t.index) a) : Passes t a
  | argument {t f : Cell} {i a : ℕ} (isStr : t.tag = .STR) (atFunctor : functor mem t = some f)
      (small : i < f.arity) (rest : Passes (mem (t.index + i + 1)) a) : Passes t a

/-- `heap_limit_term` protects the term and asks for no cell beyond the heap: no structure and no
bignum of the term ends where the heap ends, the bound variables that the term goes through lie
below the limiter anyway, and the term is not just the variable in cell 0, which is not visited. -/
structure Limits (size limiter : ℕ) (t : Cell) : Prop where
  fits : ∀ v, Within mem v t → limitOf mem v ≤ size
  passed : ∀ a, Passes mem t a → a < limiter ∨ ∃ v, Within mem v t ∧ a < limitOf mem v
  visited : Finds (fun n => deref mem n t) noTerm → 0 < limiter

variable {mem} {t p : Cell} {a : ℕ}

theorem Reaches.of_deref {n : ℕ} (found : deref mem n t = some p) (reaches : Reaches mem t a) :
    Passes mem t a ∨ Reaches mem p a := by
  induction n generalizing t with
  | zero => exact nomatch found
  | succ n ih =>
    unfold deref at found
    split_ifs at found with isRef unbound
    · exact .inr (Option.some.inj found ▸ reaches)
    · cases reaches with
      | here own =>
        rw [cellsOf_ref isRef, List.mem_singleton] at own
        exact .inl (own ▸ .here isRef unbound)
      | inside own _ rest =>
        rw [cellsOf_ref isRef, List.mem_singleton] at own
        subst own
        exact (ih found rest).imp_left (.through isRef unbound)
    · exact .inr (Option.some.inj found ▸ reaches)

theorem Passes.of_value {n : ℕ} (found : deref mem n t = some p) (passes : Passes mem p a) :
    Passes mem t a := by
  induction n generalizing t with
  | zero => exact nomatch found
  | succ n ih =>
    unfold deref at found
    split_ifs at found with isRef unbound
    · exact Option.some.inj found ▸ passes
    · exact .through isRef unbound (ih found)
    · exact Option.some.inj found ▸ passes

theorem not_reaches (none_ : cellsOf mem t = []) : ¬ Reaches mem t a := by
  intro reaches
  cases reaches with
  | here own => exact nomatch none_ ▸ own
  | inside own _ _ => exact nomatch none_ ▸ own

theorem Reaches.of_unbound (reaches : Reaches mem t a) (isRef : t.tag.isRef = true)
    (unbound : mem t.index = t) : a = t.index := by
  induction reaches with
  | here own => rwa [cellsOf_ref isRef, List.mem_singleton] at own
  | inside own _ _ ih =>
    rw [cellsOf_ref isRef, List.mem_singleton] at own
    subst own
    rw [unbound] at ih
    exact ih isRef unbound

theorem Reaches.of_value (reaches : Reaches mem p a) (ends : p.tag.isRef = true → mem p.index = p)
    (shaped : p.tag = .STR → ∃ f, functor mem p = some f) :
    a < limitOf mem p ∨ ∃ f i, p.tag = .STR ∧ functor mem p = some f ∧ i < f.arity ∧
      Reaches mem (mem (p.index + i + 1)) a := by
  by_cases isRef : p.tag.isRef = true
  · left
    rw [reaches.of_unbound isRef (ends isRef)]
    unfold Tag.isRef at isRef
    rw [decide_eq_true_eq] at isRef
    unfold limitOf
    rcases isRef with plain | watched
    · rw [plain]
      exact Nat.lt_succ_self _
    · rw [watched]
      exact Nat.lt_succ_self _
  by_cases isBig : p.tag = .BIG
  · left
    unfold limitOf
    rw [isBig]
    dsimp only
    cases reaches with
    | here own =>
      rw [cellsOf_big isBig, List.mem_range'_1] at own
      omega
    | inside _ notBig _ => exact absurd isBig notBig
  by_cases isStr : p.tag = .STR
  · obtain ⟨f, atFunctor⟩ := shaped isStr
    have isCon : (mem p.index).tag = .CON ∧ mem p.index = f := by
      unfold functor at atFunctor
      split_ifs at atFunctor with isCon
      exact ⟨isCon, Option.some.inj atFunctor⟩
    cases reaches with
    | here own =>
      rw [cellsOf_str isStr atFunctor, List.mem_range'_1] at own
      left
      unfold limitOf
      rw [isStr]
      dsimp only
      rw [isCon.2]
      omega
    | @inside _ x _ own _ rest =>
      rw [cellsOf_str isStr atFunctor, List.mem_range'_1] at own
      by_cases first : x = p.index
      · subst first
        have none_ : cellsOf mem (mem p.index) = [] := by
          unfold cellsOf
          rw [isCon.1]
        exact absurd rest (not_reaches none_)
      · right
        refine ⟨f, x - p.index - 1, isStr, atFunctor, by omega, ?_⟩
        rwa [show p.index + (x - p.index - 1) + 1 = x by omega]
  · have none_ : cellsOf mem p = [] := by
      unfold cellsOf
      revert isRef isBig isStr
      cases p.tag <;> simp [Tag.isRef]
    exact absurd reaches (not_reaches none_)

theorem reaches_walked (ends : Ends mem t) (reaches : Reaches mem t a) :
    Passes mem t a ∨ ∃ v, Within mem v t ∧ a < limitOf mem v := by
  induction ends generalizing a with
  | @node t p below here all good ih =>
    obtain ⟨n, value⟩ := finds_expandTerm_value here
    rcases reaches.of_deref value with passes | reaches
    · exact .inl passes
    have ends : Ends mem p := .node (finds_expandTerm_of ⟨n, value⟩ here) all good
    rcases reaches.of_value (deref_end value) ends.hasFunctor with
      low | ⟨f, i, isStr, atFunctor, small, reaches⟩
    · exact .inr ⟨p, .root here, low⟩
    have arguments : below = args mem p f := by
      have walked := finds_expandTerm ⟨n, value⟩ (finds_expandTerm_str isStr atFunctor)
      exact (Prod.mk.inj (here.unique (expandTerm_lasting mem t) walked)).2
    have child : mem (p.index + i + 1) ∈ below :=
      arguments ▸ List.mem_map.2 ⟨i, List.mem_range.2 small, rfl⟩
    rcases ih _ child reaches with passes | ⟨v, within, low⟩
    · exact .inl ((Passes.argument isStr atFunctor small passes).of_value value)
    · exact .inr ⟨v, .inside here child within, low⟩

theorem within_noTerm {v : Cell} (bare : Finds (fun n => deref mem n t) noTerm)
    (within : Within mem v t) : v = noTerm := by
  obtain ⟨k, found⟩ := bare
  obtain ⟨n, self⟩ := finds_deref_self (deref_end found)
  have walked : Finds (expandTerm mem t) (noTerm, []) := by
    refine finds_expandTerm ⟨k, found⟩ ⟨n, Option.bind_eq_some_iff.2 ⟨noTerm, self, ?_⟩⟩
    rw [if_neg (by decide)]
    rfl
  cases within with
  | root here => exact (Prod.mk.inj (here.unique (expandTerm_lasting mem t) walked)).1
  | inside here mem' _ =>
    rw [(Prod.mk.inj (here.unique (expandTerm_lasting mem t) walked)).2] at mem'
    exact nomatch mem'

theorem lt_raisedLimit {fuel limiter hl : ℕ} (done : raisedLimit mem fuel t limiter = .ok hl)
    (k : ℕ) : k < hl ↔ k < limiter ∨ ¬Finds (fun n => deref mem n t) noTerm ∧
      ∃ v, Within mem v t ∧ k < limitOf mem v := by
  refine @forEach_adds _ _ _ _ (fun hl => k < hl) (fun v => k < limitOf mem v) ?_ _ _ _ _ done
  intro v hl hl' raised
  rw [← Except.ok.inj raised]
  split_ifs with more
  · omega
  · omega

theorem raisedLimit_covers {fuel size limiter hl : ℕ}
    (done : raisedLimit mem fuel t limiter = .ok hl) (low : limiter ≤ size)
    (limits : Limits mem size limiter t) :
    limiter ≤ hl ∧ hl ≤ size ∧ ∀ a, Reaches mem t a → a < hl := by
  have below := lt_raisedLimit done
  refine ⟨?_, ?_, ?_⟩
  · by_contra less
    exact lt_irrefl hl ((below hl).2 (.inl (not_le.1 less)))
  · by_contra more
    rcases (below size).1 (not_le.1 more) with more | ⟨_, v, within, more⟩
    · exact absurd low (not_le.2 more)
    · exact absurd (limits.fits v within) (not_le.2 more)
  · intro a reaches
    have walked : a < limiter ∨ ∃ v, Within mem v t ∧ a < limitOf mem v := by
      rcases reaches_walked (forEach_ends done) reaches with passes | walked
      · exact limits.passed a passes
      · exact .inr walked
    rcases walked with low | ⟨v, within, low⟩
    · exact (below a).2 (.inl low)
    · by_cases bare : Finds (fun n => deref mem n t) noTerm
      · have zero : limitOf mem noTerm = 1 := rfl
        rw [within_noTerm bare within, zero] at low
        have pos := limits.visited bare
        exact (below a).2 (.inl (by omega))
      · exact (below a).2 (.inr ⟨bare, v, within, low⟩)

end Limit

section Model

/-- The part of the interpreter that trimming depends on -/
structure State where
  mem : ℕ → Cell
  size : ℕ
  /-- `heap_limiter_` -/
  limiter : ℕ
  /-- `frozen_closures_` -/
  closures : FMap ℕ Cell
  /-- The clauses that were loaded and the terms that `heap_limit_term` was called with -/
  retained : List Cell

namespace State

/-- `heap::allocate`: only a bignum may span several blocks. -/
def allocate (s : State) (span : Bool) (cells : List Cell) : State :=
  let addr := if span then s.size else allocAddr s.size cells.length
  { s with
    mem := fun a =>
      if addr ≤ a ∧ a < addr + cells.length then cells.getD (a - addr) noTerm else s.mem a
    size := addr + cells.length }

/-- `get_frozen_closures`, for as many closures as there are -/
def getFrozenClosures (s : State) (fromAddr toAddr : ℕ) : List (ℕ × Cell) :=
  if fromAddr = s.size then
    (entries s.closures).reverse.takeWhile fun e => decide (toAddr ≤ e.1)
  else
    ((entries s.closures).dropWhile fun e => decide (e.1 < fromAddr)).takeWhile
      fun e => decide (e.1 < toAddr)

/-- `set_frozen_closure`; `insert` leaves what is there. -/
def setFrozenClosure (s : State) (index : ℕ) (closure : Cell) : State :=
  { s with
    mem := heapWatch s.mem index true
    closures :=
      if (s.closures.lookup index).isSome then s.closures else s.closures.insert index closure }

def clearFrozenClosure (s : State) (index : ℕ) : State :=
  { s with
    mem := heapWatch s.mem index false
    closures := s.closures.erase index }

/-- `internal_trim`: the head block takes the size it is given, cells or not. -/
def internalTrim (s : State) (newSize : ℕ) : State :=
  if s.size = 0 then s else { s with size := newSize }

def trimHeapSafe (s : State) (requested : ℕ) : State :=
  let newSize := if requested < s.limiter then s.limiter else requested
  let closures := s.getFrozenClosures newSize s.size
  (closures.foldl (fun s p => s.clearFrozenClosure p.1) s).internalTrim newSize

/-- `load_clause`, up to `heap_limit` -/
def loadClause (s : State) (clause : Cell) : State :=
  { s with
    limiter := s.size
    retained := clause :: s.retained }

def heapLimitTerm (s : State) (fuel : ℕ) (t : Cell) : Except (Halt Empty) State := do
  let hl ← raisedLimit s.mem fuel t s.limiter
  return { s with
    limiter := if hl > s.limiter then hl else s.limiter
    retained := t :: s.retained }

/-- `freeze_2` on a variable; `retain` is `is_retain_state_between_queries`. -/
def freeze (s : State) (fuel index : ℕ) (closure : Cell) (retain : Bool) :
    Except (Halt Empty) State :=
  let s := s.setFrozenClosure index closure
  if retain then s.heapLimitTerm fuel closure else .ok s

end State

/-- What the limiter and the retained terms depend on. The garbage collector moves the cells and
leaves `heap_limiter_` as it is. -/
inductive Event
  | allocate (span : Bool) (cells : List Cell)
  | heapSet (addr : ℕ) (c : Cell)
  | loadClause (clause : Cell)
  | heapLimitTerm (fuel : ℕ) (t : Cell)
  | freeze (fuel index : ℕ) (closure : Cell) (retain : Bool)
  | clearFrozenClosure (index : ℕ)
  | collectGarbage (mem : ℕ → Cell) (size : ℕ) (closures : FMap ℕ Cell) (retained : List Cell)
  | trimHeapSafe (requested : ℕ)

/-- A walk that does not come to an end is no step. -/
def State.after (s : State) : Except (Halt Empty) State → State
  | .ok s' => s'
  | .error _ => s

def step (s : State) : Event → State
  | .allocate span cells => s.allocate span cells
  | .heapSet addr c => { s with mem := Function.update s.mem addr c }
  | .loadClause clause => s.loadClause clause
  | .heapLimitTerm fuel t => s.after (s.heapLimitTerm fuel t)
  | .freeze fuel index closure retain => s.after (s.freeze fuel index closure retain)
  | .clearFrozenClosure index => s.clearFrozenClosure index
  | .collectGarbage mem size closures retained =>
    { s with mem := mem, size := size, closures := closures, retained := retained }
  | .trimHeapSafe requested => s.trimHeapSafe requested

/-- A trim from `s` to `s'` that is safe: the retained terms and the closures that are left lie on
the heap that is left, the heap is no larger and shows no cell beyond those that were written, and
the closures that are gone are those on addresses that were cut off. -/
structure Trimmed (s s' : State) : Prop where
  retained : ∀ t ∈ s.retained, ∀ a, Reaches s.mem t a → a < s'.size
  pending : ∀ addr t, s'.closures.lookup addr = some t → ∀ a, Reaches s.mem t a → a < s'.size
  cells : ∀ a < s'.size, s'.mem a = s.mem a
  smaller : s'.size ≤ s.size
  written : ∀ a, s.size ≤ a → s'.size ≤ a
  closures : ∀ addr, s'.closures.lookup addr =
    if s'.size ≤ addr ∧ addr < s.size then none else s.closures.lookup addr

/-- Whatever size is requested, of those the heap has had, trimming is safe. -/
def Safe (s : State) : Prop := ∀ requested ≤ s.size, Trimmed s (s.trimHeapSafe requested)

/-- A term that a trim must keep, and how far down the heap can be trimmed while it must -/
def Guarded (s : State) (t : Cell) (bound : ℕ) : Prop :=
  t ∈ s.retained ∧ bound = s.limiter ∨
    ∃ addr, s.closures.lookup addr = some t ∧ bound = max s.limiter (addr + 1)

structure Covered (s : State) : Prop where
  limit : s.limiter ≤ s.size
  placed : ∀ addr t, s.closures.lookup addr = some t → addr < s.size
  below : ∀ t bound, Guarded s t bound → ∀ a, Reaches s.mem t a → a < bound

/-- The condition on an event: a clause that is loaded lies on the heap; no term ends at the end of
the heap that `heap_limit_term` is called with; a closure that is not retained lies below the
limiter or its variable; what is written into a retained term or a closure, and where the garbage
collector moves them, is below their bound. -/
def Meets (s : State) : Event → Prop
  | .heapSet addr c => ∀ t bound, Guarded s t bound → Reaches s.mem t addr →
      ∀ a, Reaches (Function.update s.mem addr c) t a → a < bound
  | .loadClause clause => ∀ a, Reaches s.mem clause a → a < s.size
  | .heapLimitTerm _ t => Limits s.mem s.size s.limiter t
  | .freeze _ index closure true =>
      index < s.size ∧ Limits (heapWatch s.mem index true) s.size s.limiter closure
  | .freeze _ index closure false =>
      index < s.size ∧ (s.closures.lookup index = none →
        ∀ a, Reaches s.mem closure a → a < max s.limiter (index + 1))
  | .collectGarbage mem size closures retained => Covered ⟨mem, size, s.limiter, closures, retained⟩
  | .trimHeapSafe requested => requested ≤ s.size
  | _ => True

/-- `reset`: the limiter is at the end of the heap, and nothing is retained beyond it. -/
structure Start (s : State) : Prop where
  limit : s.limiter = s.size
  noClosures : s.closures = ∅
  noTerms : s.retained = []

end Model
section Trims

variable {s s' : State}

/-- What is left when some closures are cleared -/
structure Cleared (s s' : State) (addrs : List ℕ) : Prop where
  size : s'.size = s.size
  limiter : s'.limiter = s.limiter
  retained : s'.retained = s.retained
  closures : ∀ addr, s'.closures.lookup addr =
    if addr ∈ addrs then none else s.closures.lookup addr
  cells : ∀ a, a ∉ addrs → s'.mem a = s.mem a

theorem cleared_foldl (l : List (ℕ × Cell)) (s : State) :
    Cleared s (l.foldl (fun s p => s.clearFrozenClosure p.1) s) (l.map Prod.fst) := by
  induction l generalizing s with
  | nil => exact ⟨rfl, rfl, rfl, fun _ => rfl, fun _ _ => rfl⟩
  | cons p l ih =>
    have rest := ih (s.clearFrozenClosure p.1)
    refine ⟨rest.size, rest.limiter, rest.retained, fun addr => ?_, fun a absent => ?_⟩
    · rw [List.foldl_cons, rest.closures]
      unfold State.clearFrozenClosure
      dsimp only
      rw [lookup_erase_ite, List.map_cons]
      simp only [List.mem_cons]
      by_cases later : addr ∈ l.map Prod.fst
      · rw [if_pos later, if_pos (.inr later)]
      · rw [if_neg later]
        by_cases here : addr = p.1
        · rw [if_pos here, if_pos (.inl here)]
        · rw [if_neg here, if_neg (not_or.2 ⟨here, later⟩)]
    · rw [List.map_cons, List.mem_cons, not_or] at absent
      rw [List.foldl_cons, rest.cells a absent.2]
      exact heapWatch_of_ne false absent.1

theorem mem_getFrozenClosures {fromAddr toAddr addr : ℕ} :
    addr ∈ (s.getFrozenClosures fromAddr toAddr).map Prod.fst ↔
      (s.closures.lookup addr).isSome ∧
        if fromAddr = s.size then toAddr ≤ addr else fromAddr ≤ addr ∧ addr < toAddr := by
  have sorted := entries_pairwise s.closures
  have members : ∀ (l : List (ℕ × Cell)) (inside : Prop),
      (∀ t, (addr, t) ∈ l ↔ (addr, t) ∈ entries s.closures ∧ inside) →
      (addr ∈ l.map Prod.fst ↔ (s.closures.lookup addr).isSome ∧ inside) := by
    intro l inside found
    rw [List.mem_map, Option.isSome_iff_exists]
    constructor
    · rintro ⟨⟨_, t⟩, mem, rfl⟩
      obtain ⟨known, isInside⟩ := (found t).1 mem
      exact ⟨⟨t, mem_entries.1 known⟩, isInside⟩
    · rintro ⟨⟨t, known⟩, isInside⟩
      exact ⟨(addr, t), (found t).2 ⟨mem_entries.2 known, isInside⟩, rfl⟩
  unfold State.getFrozenClosures
  split_ifs with fromEnd
  · refine members _ _ fun t => ?_
    rw [takeWhile_eq_filter, List.mem_filter, List.mem_reverse, decide_eq_true_eq]
    rw [List.pairwise_reverse]
    refine sorted.imp fun less above => ?_
    rw [decide_eq_true_eq] at above ⊢
    exact above.trans less.le
  · refine members _ _ fun t => ?_
    rw [dropWhile_eq_filter, takeWhile_eq_filter, List.mem_filter, List.mem_filter,
      Bool.not_eq_true', decide_eq_false_iff_not, decide_eq_true_eq, not_lt, and_assoc]
    · refine (sorted.filter _).imp fun less below => ?_
      rw [decide_eq_true_eq] at below ⊢
      exact less.trans below
    · refine sorted.imp fun less below => ?_
      rw [decide_eq_true_eq] at below ⊢
      exact less.trans below

theorem trimHeapSafe_size (requested : ℕ) (notEmpty : s.size ≠ 0) :
    (s.trimHeapSafe requested).size = if requested < s.limiter then s.limiter else requested := by
  unfold State.trimHeapSafe State.internalTrim
  dsimp only
  rw [(cleared_foldl _ s).size, if_neg notEmpty]

theorem Covered.bound_le (covered : Covered s) {t : Cell} {bound : ℕ}
    (guarded : Guarded s t bound) : bound ≤ s.size := by
  rcases guarded with ⟨_, rfl⟩ | ⟨addr, known, rfl⟩
  · exact covered.limit
  · exact max_le covered.limit (covered.placed addr t known)

theorem Covered.trimHeapSafe (covered : Covered s) {requested : ℕ} (recorded : requested ≤ s.size) :
    let s' := s.trimHeapSafe requested
    s'.size = max requested s.limiter ∧ s'.limiter = s.limiter ∧ s'.retained = s.retained ∧
      (∀ addr, s'.closures.lookup addr =
        if s'.size ≤ addr then none else s.closures.lookup addr) ∧
      ∀ a < s'.size, s'.mem a = s.mem a := by
  have limit := covered.limit
  have target : (if requested < s.limiter then s.limiter else requested) =
      max requested s.limiter := by
    split_ifs <;> omega
  have cleared := cleared_foldl (s.getFrozenClosures (max requested s.limiter) s.size) s
  have cut : ∀ addr, addr ∈ (s.getFrozenClosures (max requested s.limiter) s.size).map Prod.fst ↔
      (s.closures.lookup addr).isSome ∧ max requested s.limiter ≤ addr := by
    intro addr
    rw [mem_getFrozenClosures]
    refine and_congr_right fun known => ?_
    obtain ⟨t, known⟩ := Option.isSome_iff_exists.1 known
    have placed := covered.placed addr t known
    split_ifs <;> omega
  have shape : s.trimHeapSafe requested =
      { (s.getFrozenClosures (max requested s.limiter) s.size).foldl
          (fun s p => s.clearFrozenClosure p.1) s with size := max requested s.limiter } := by
    unfold State.trimHeapSafe State.internalTrim
    dsimp only
    rw [target]
    split_ifs with empty
    · have zero : max requested s.limiter = 0 := by
        rw [cleared.size] at empty
        omega
      exact congrArg (fun n => State.mk _ n _ _ _) (empty.trans zero.symm)
    · rfl
  rw [shape]
  refine ⟨rfl, cleared.limiter, cleared.retained, fun addr => ?_, fun a low => ?_⟩
  · refine (cleared.closures addr).trans ?_
    by_cases off : max requested s.limiter ≤ addr
    · rw [if_pos off]
      split_ifs with found
      · rfl
      · cases known : s.closures.lookup addr with
        | none => rfl
        | some t => exact absurd ((cut addr).2 ⟨by rw [known]; rfl, off⟩) found
    · rw [if_neg off, if_neg (fun found => off ((cut addr).1 found).2)]
  · exact cleared.cells a fun found => absurd low (not_lt.2 ((cut a).1 found).2)

theorem Covered.safe (covered : Covered s) : Safe s := by
  intro requested recorded
  obtain ⟨size, limiter, -, closures, cells⟩ := covered.trimHeapSafe recorded
  have smaller : (s.trimHeapSafe requested).size ≤ s.size := by
    rw [size]
    exact max_le recorded covered.limit
  refine ⟨fun t mem a reaches => ?_, fun addr t known a reaches => ?_, cells, smaller,
    fun a beyond => smaller.trans beyond, fun addr => ?_⟩
  · have low := covered.below t _ (.inl ⟨mem, rfl⟩) a reaches
    rw [size]
    exact lt_max_of_lt_right low
  · rw [closures] at known
    split_ifs at known with off
    have low := covered.below t _ (.inr ⟨addr, known, rfl⟩) a reaches
    rw [size] at off ⊢
    omega
  · rw [closures]
    by_cases off : (s.trimHeapSafe requested).size ≤ addr
    · rw [if_pos off]
      split_ifs with inside
      · rfl
      · cases known : s.closures.lookup addr with
        | none => rfl
        | some t => exact absurd ⟨off, covered.placed addr t known⟩ inside
    · rw [if_neg off, if_neg (fun both => off both.1)]

theorem Covered.frame (covered : Covered s) (limit : s'.limiter ≤ s'.size)
    (placed : ∀ addr t, s'.closures.lookup addr = some t → addr < s'.size)
    (guards : ∀ t bound, Guarded s' t bound →
      (∃ bound' ≤ bound, Guarded s t bound' ∧ ∀ a < bound', Refers s.mem s'.mem a) ∨
        ∀ a, Reaches s'.mem t a → a < bound) : Covered s' := by
  refine ⟨limit, placed, fun t bound guarded a reaches => ?_⟩
  rcases guards t bound guarded with ⟨bound', less, guarded', refers⟩ | known
  · have before : Reaches s.mem t a :=
      reaches.congr fun x reaches => refers x (covered.below t bound' guarded' x reaches)
    exact (covered.below t bound' guarded' a before).trans_le less
  · exact known a reaches

theorem Covered.allocate (covered : Covered s) (span : Bool) (cells : List Cell) :
    Covered (s.allocate span cells) := by
  have above : s.size ≤ if span then s.size else allocAddr s.size cells.length := by
    split_ifs
    · exact le_rfl
    · exact le_allocAddr ..
  have larger : s.size ≤ (s.allocate span cells).size := above.trans (Nat.le_add_right ..)
  refine covered.frame (covered.limit.trans larger)
    (fun addr t known => (covered.placed addr t known).trans_le larger) fun t bound guarded => ?_
  refine .inl ⟨bound, le_rfl, guarded, fun a low => .inl ?_⟩
  have onHeap := covered.bound_le guarded
  exact if_neg (by omega)

theorem Covered.heapSet (covered : Covered s) {addr : ℕ} {c : Cell}
    (met : Meets s (.heapSet addr c)) : Covered (step s (.heapSet addr c)) := by
  refine covered.frame covered.limit covered.placed fun t bound guarded => .inr ?_
  intro a reaches
  by_cases touched : Reaches s.mem t addr
  · exact met t bound guarded touched a reaches
  · refine covered.below t bound guarded a (reaches.congr fun x reached => .inl ?_)
    refine Function.update_of_ne ?_ ..
    rintro rfl
    exact touched reached

theorem Covered.loadClause (covered : Covered s) {clause : Cell}
    (met : Meets s (.loadClause clause)) : Covered (s.loadClause clause) := by
  refine covered.frame le_rfl covered.placed fun t bound guarded => ?_
  rcases guarded with ⟨mem, rfl⟩ | ⟨addr, known, rfl⟩
  · rcases List.mem_cons.1 mem with rfl | mem
    · exact .inr met
    · exact .inl ⟨s.limiter, covered.limit, .inl ⟨mem, rfl⟩, fun _ _ => .inl rfl⟩
  · exact .inl ⟨_, max_le_max_right _ covered.limit, .inr ⟨addr, known, rfl⟩, fun _ _ => .inl rfl⟩

theorem Covered.clearFrozenClosure (covered : Covered s) (index : ℕ) :
    Covered (s.clearFrozenClosure index) := by
  have before : ∀ {addr t}, (s.closures.erase index).lookup addr = some t →
      s.closures.lookup addr = some t := lookup_erase_some
  refine covered.frame covered.limit (fun addr t known => covered.placed addr t (before known))
    fun t bound guarded => .inl ⟨bound, le_rfl, ?_, fun _ _ => heapWatch_refers index false⟩
  exact guarded.imp_right fun ⟨addr, known, same⟩ => ⟨addr, before known, same⟩

theorem Covered.trim (covered : Covered s) {requested : ℕ} (recorded : requested ≤ s.size) :
    Covered (s.trimHeapSafe requested) := by
  obtain ⟨size, limiter, retained, closures, cells⟩ := covered.trimHeapSafe recorded
  have left : ∀ {addr t}, (s.trimHeapSafe requested).closures.lookup addr = some t →
      s.closures.lookup addr = some t ∧ addr < (s.trimHeapSafe requested).size := by
    intro addr t known
    rw [closures] at known
    split_ifs at known with off
    exact ⟨known, not_le.1 off⟩
  refine covered.frame (by rw [size, limiter]; exact le_max_right ..)
    (fun addr t known => (left known).2) fun t bound guarded => ?_
  rcases guarded with ⟨mem, rfl⟩ | ⟨addr, known, rfl⟩
  · rw [retained] at mem
    refine .inl ⟨s.limiter, limiter.ge, .inl ⟨mem, rfl⟩, fun a low => .inl (cells a ?_)⟩
    rw [size]
    exact lt_max_of_lt_right low
  · obtain ⟨known, low⟩ := left known
    rw [limiter]
    refine .inl ⟨_, le_rfl, .inr ⟨addr, known, rfl⟩, fun a below => .inl (cells a ?_)⟩
    rw [size] at low ⊢
    omega

end Trims

section Runs

variable {s s' : State}

theorem Covered.limited (covered : Covered s) {mem : ℕ → Cell} {closures : FMap ℕ Cell}
    {t : Cell} {fuel hl : ℕ} (refers : ∀ a, Refers s.mem mem a)
    (known : ∀ addr u, closures.lookup addr = some u →
      s.closures.lookup addr = some u ∨ addr < s.size ∧ u = t)
    (done : raisedLimit mem fuel t s.limiter = .ok hl) (limits : Limits mem s.size s.limiter t) :
    Covered ⟨mem, s.size, if hl > s.limiter then hl else s.limiter, closures, t :: s.retained⟩ := by
  obtain ⟨more, fits, below⟩ := raisedLimit_covers done covered.limit limits
  have raised : (if hl > s.limiter then hl else s.limiter) = hl := by split_ifs <;> omega
  rw [raised]
  refine covered.frame fits (fun addr u found => ?_) fun u bound guarded => ?_
  · rcases known addr u found with found | ⟨onHeap, _⟩
    · exact covered.placed addr u found
    · exact onHeap
  · rcases guarded with ⟨mem', rfl⟩ | ⟨addr, found, rfl⟩
    · rcases List.mem_cons.1 mem' with rfl | mem'
      · exact .inr below
      · exact .inl ⟨s.limiter, more, .inl ⟨mem', rfl⟩, fun a _ => refers a⟩
    · rcases known addr u found with found | ⟨_, rfl⟩
      · exact .inl ⟨_, max_le_max_right _ more, .inr ⟨addr, found, rfl⟩, fun a _ => refers a⟩
      · exact .inr fun a reaches => lt_max_of_lt_left (below a reaches)

theorem lookup_setFrozenClosure {index addr : ℕ} {closure t : Cell}
    (found : (s.setFrozenClosure index closure).closures.lookup addr = some t) :
    s.closures.lookup addr = some t ∨
      s.closures.lookup index = none ∧ addr = index ∧ t = closure := by
  unfold State.setFrozenClosure at found
  dsimp only at found
  split_ifs at found with taken
  · exact .inl found
  · rw [lookup_insert_ite] at found
    split_ifs at found with here
    · rw [Option.not_isSome_iff_eq_none] at taken
      exact .inr ⟨taken, here, (Option.some.inj found).symm⟩
    · exact .inl found

theorem Covered.heapLimitTerm (covered : Covered s) {fuel : ℕ} {t : Cell}
    (limits : Limits s.mem s.size s.limiter t) : Covered (s.after (s.heapLimitTerm fuel t)) := by
  cases done : s.heapLimitTerm fuel t with
  | error e => exact covered
  | ok s' =>
    obtain ⟨hl, raised, same⟩ := bind_ok done
    rw [← Except.ok.inj same]
    exact covered.limited (fun _ => .inl rfl) (fun _ _ found => .inl found) raised limits

theorem Covered.freeze (covered : Covered s) {fuel index : ℕ} {closure : Cell} {retain : Bool}
    (met : Meets s (.freeze fuel index closure retain)) :
    Covered (s.after (s.freeze fuel index closure retain)) := by
  have refers : ∀ a, Refers s.mem (heapWatch s.mem index true) a :=
    fun _ => heapWatch_refers index true
  cases retain with
  | true =>
    obtain ⟨onHeap, limits⟩ := met
    cases done : s.freeze fuel index closure true with
    | error e => exact covered
    | ok s' =>
      obtain ⟨hl, raised, same⟩ := bind_ok done
      rw [← Except.ok.inj same]
      refine covered.limited refers (fun addr t found => ?_) raised limits
      refine (lookup_setFrozenClosure found).imp_right ?_
      rintro ⟨_, rfl, isNew⟩
      exact ⟨onHeap, isNew⟩
  | false =>
    obtain ⟨onHeap, low⟩ := met
    have set : Covered (s.setFrozenClosure index closure) := by
      refine covered.frame covered.limit (fun addr t found => ?_) fun t bound guarded => ?_
      · rcases lookup_setFrozenClosure found with found | ⟨_, rfl, _⟩
        · exact covered.placed addr t found
        · exact onHeap
      · rcases guarded with ⟨mem, rfl⟩ | ⟨addr, found, rfl⟩
        · exact .inl ⟨_, le_rfl, .inl ⟨mem, rfl⟩, fun a _ => refers a⟩
        · rcases lookup_setFrozenClosure found with found | ⟨free, rfl, rfl⟩
          · exact .inl ⟨_, le_rfl, .inr ⟨addr, found, rfl⟩, fun a _ => refers a⟩
          · exact .inr fun a reaches => low free a (reaches.congr fun x _ => refers x)
    exact set

theorem Covered.step (covered : Covered s) {e : Event} (met : Meets s e) :
    Covered (HeapTrim.step s e) := by
  cases e with
  | allocate span cells => exact covered.allocate span cells
  | heapSet addr c => exact covered.heapSet met
  | loadClause clause => exact covered.loadClause met
  | heapLimitTerm fuel t => exact covered.heapLimitTerm met
  | freeze fuel index closure retain => exact covered.freeze met
  | clearFrozenClosure index => exact covered.clearFrozenClosure index
  | collectGarbage mem size closures retained => exact met
  | trimHeapSafe requested => exact covered.trim met

theorem Start.covered (start : Start s) : Covered s := by
  refine ⟨start.limit.le, fun addr t known => ?_, fun t bound guarded => ?_⟩
  · rw [start.noClosures, Finmap.lookup_empty] at known
    exact nomatch known
  · rcases guarded with ⟨mem, _⟩ | ⟨addr, known, _⟩
    · rw [start.noTerms] at mem
      exact nomatch mem
    · rw [start.noClosures, Finmap.lookup_empty] at known
      exact nomatch known

/-- In a run whose events meet the condition trimming is safe in every state. -/
theorem trims_safely (s : State) (start : Start s) (events : List Event)
    (met : EachStep step Meets s events) : Throughout step Safe s events :=
  throughout_of_invariant (fun _ _ covered met => covered.step met) (fun _ covered => covered.safe)
    start.covered met

def fresh : State := ⟨fun _ => noTerm, 0, 0, ∅, []⟩

/-- `f(X)` -/
def unaryCells : List Cell :=
  [Cell.make .STR 1, Cell.conOfName (Cell.ascii "f") 1, Cell.make .REF 2]

def unary : Cell := Cell.make .STR 1

/-- The structure that `heap_limit_term` is called with is not the last on the heap. -/
def withSpare : State := (fresh.allocate false unaryCells).allocate false [Cell.make .REF 3]

theorem limits_unary : Limits withSpare.mem 4 0 unary := by
  have notBare : ¬ Finds (fun n => deref withSpare.mem n unary) noTerm := fun bare =>
    absurd (bare.unique (deref_lasting _ unary) (finds_deref_str (by decide))) (by decide)
  have visited (v : Cell) (within : Within withSpare.mem v unary) :
      v = Cell.make .REF 2 ∨ v = unary := by
    have done : forEach (ε := Empty) withSpare.mem (fun v seen => .ok (v :: seen)) 3 unary [] =
        .ok [unary, Cell.make .REF 2] := by decide
    have all := @forEach_adds _ _ _ _ (fun seen => v ∈ seen) (· = v)
      (fun w seen seen' step => by
        rw [← Except.ok.inj step, List.mem_cons, or_comm, eq_comm]) _ _ _ _ done
    have mem := all.2 (.inr ⟨notBare, v, within, rfl⟩)
    rw [List.mem_cons, List.mem_singleton] at mem
    exact mem.symm
  refine ⟨fun v within => ?_, fun a passes => ?_, fun bare => absurd bare notBare⟩
  · rcases visited v within with rfl | rfl
    · decide
    · decide
  · cases passes with
    | here isRef _ => exact absurd isRef (by decide)
    | through isRef _ _ => exact absurd isRef (by decide)
    | @argument _ f i _ _ atFunctor small rest =>
      have one : functor withSpare.mem unary = some (Cell.conOfName (Cell.ascii "f") 1) := by decide
      rw [← Option.some.inj (one.symm.trans atFunctor),
        show (Cell.conOfName (Cell.ascii "f") 1).arity = 1 by decide, Nat.lt_one_iff] at small
      subst small
      have unbound : withSpare.mem (unary.index + 0 + 1) = Cell.make .REF 2 := by decide
      rw [unbound] at rest
      cases rest with
      | here _ bound => exact absurd (by decide) bound
      | through _ bound _ => exact absurd (by decide) bound
      | argument isStr _ _ _ => exact absurd isStr (by decide)

theorem trims_safely_unary : Throughout step Safe fresh
    [.allocate false unaryCells, .allocate false [Cell.make .REF 3], .heapLimitTerm 5 unary,
      .trimHeapSafe 3] :=
  trims_safely fresh ⟨rfl, rfl, rfl⟩ _
    ⟨trivial, trivial, limits_unary, by unfold Meets; decide, trivial⟩

/-- The structure that `heap_limit_term` is called with is the last on the heap. -/
def lastStructure : List Event := [.allocate false unaryCells, .heapLimitTerm 5 unary]

theorem trim_enlarges : ¬ Throughout step Safe fresh lastStructure := by
  intro all
  have smaller := (all.last 0 (Nat.zero_le _)).smaller
  rw [trimHeapSafe_size 0 (by decide)] at smaller
  revert smaller
  decide

end Runs


end Epilog.Interp.HeapTrim
