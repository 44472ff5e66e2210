/- Module: Epilog/Common/HeapTrees
   source: src/src/common/term.hpp (cells, deref, arg), src/src/common/term_env.cpp (unify)
   digest: Heaps that hold terms, the trees of these terms, and what bindings do to them. -/

import Epilog.Common.Forwarding
import Epilog.Lib.RationalTree

set_option autoImplicit false

namespace Epilog.Common.HeapTrees

open Epilog.Common.Term Epilog.Common.TermWalk Epilog.Common.Unify Epilog.Common.Forwarding
  Epilog.Lib.Fuel Epilog.Lib.RationalTree

section Values

variable {mem mem' : ℕ → Cell} {c d d' : Cell} {x : ℕ}

/-- `deref` comes to an end. -/
abbrev Derefs (mem : ℕ → Cell) (c d : Cell) : Prop := Finds (fun n => deref mem n c) d

theorem Derefs.unique (first : Derefs mem c d) (second : Derefs mem c d') : d = d' :=
  Finds.unique (deref_lasting mem c) first second

theorem Derefs.self (derefs : Derefs mem c d) : Derefs mem d d := by
  obtain ⟨n, found⟩ := derefs
  exact finds_deref_self (deref_end found)

theorem derefs_value (notRef : c.tag.isRef = false) : Derefs mem c c :=
  finds_deref_self fun isRef => absurd (notRef.symm.trans isRef) nofun

theorem str_not_ref (isStr : c.tag = .STR) : c.tag.isRef = false := by
  rw [isStr]
  rfl

theorem ref_not_con (isRef : c.tag.isRef = true) : c.tag ≠ .CON := by
  intro isCon
  rw [isCon] at isRef
  exact nomatch isRef

theorem derefs_ref (isRef : c.tag.isRef = true) (derefs : Derefs mem (mem c.index) d) :
    Derefs mem c d := by
  obtain ⟨n, found⟩ := derefs
  by_cases unbound : mem c.index = c
  · rw [unbound] at found
    exact ⟨n, found⟩
  · refine ⟨n + 1, ?_⟩
    dsimp only
    unfold deref
    rw [if_pos isRef, if_neg unbound]
    exact found

theorem derefs_var (isVar : IsVar mem x) : Derefs mem (mem x) (mem x) :=
  finds_deref_self fun _ => congrArg mem isVar.2

/-- The value of a term; a circle of references has none. -/
noncomputable def value (mem : ℕ → Cell) (c : Cell) : Cell :=
  open Classical in if derefs : ∃ d, Derefs mem c d then derefs.choose else c

theorem value_eq (derefs : Derefs mem c d) : value mem c = d := by
  have some : ∃ d, Derefs mem c d := ⟨d, derefs⟩
  unfold value
  rw [dif_pos some]
  exact some.choose_spec.unique derefs

theorem Derefs.after (derefs : Derefs mem c d) (binds : Binds mem mem')
    (later : Derefs mem' d d') : Derefs mem' c d' := by
  obtain ⟨n, found⟩ := derefs
  induction n generalizing c with
  | zero => cases found
  | succ n ih =>
    dsimp only at found
    unfold deref at found
    split_ifs at found with isRef unbound
    · rwa [Option.some.inj found]
    · have next := ih found
      rcases binds c.index with same | isVar
      · apply derefs_ref isRef
        rwa [same]
      · -- the reference is to an unbound variable, whose cell is the value
        apply derefs_ref isRef
        have value : mem c.index = d := by
          have own := (derefs_var isVar).unique ⟨n, found⟩
          exact own
        have there : (mem c.index).index = c.index := isVar.2
        obtain ⟨m, found'⟩ := next
        cases m with
        | zero => cases found'
        | succ m =>
          dsimp only at found'
          unfold deref at found'
          rw [if_pos isVar.1, there] at found'
          split_ifs at found' with same
          · rw [same]
            exact ⟨1, by
              dsimp only
              unfold deref
              rw [if_pos isVar.1, there, if_pos same]
              exact found'⟩
          · exact ⟨m, found'⟩
    · rwa [Option.some.inj found]

end Values

section Trees

/-- What a subtree has at its root -/
inductive Label
  | const (c : Cell)
  | functor (f : Cell)
  | big (number : ℕ × List ℕ)

/-- What a value is: a variable, or a label above the arguments. -/
def look (mem : ℕ → Cell) (d : Cell) : ℕ ⊕ (Label × List Cell) :=
  if d.tag.isRef then .inl d.index
  else if d.tag = .STR then .inr (.functor (mem d.index), args mem d (mem d.index))
  else if d.tag = .BIG then .inr (.big (bigBytes mem d), [])
  else .inr (.const d, [])

noncomputable def view (mem : ℕ → Cell) : View ℕ Label Cell := fun c => look mem (value mem c)

/-- The tree of a term, cyclic ones unrolled, when the unbound variables stand for trees -/
noncomputable def tree (mem : ℕ → Cell) (σ : ℕ → PathTree Label) (c : Cell) : PathTree Label :=
  den (view mem) σ c

variable {mem : ℕ → Cell} {σ : ℕ → PathTree Label} {c d : Cell}

theorem look_ref (isRef : d.tag.isRef = true) : look mem d = .inl d.index := if_pos isRef

theorem look_str (isStr : d.tag = .STR) :
    look mem d = .inr (.functor (mem d.index), args mem d (mem d.index)) := by
  unfold look
  rw [isStr, if_neg nofun, if_pos rfl]

theorem look_big (isBig : d.tag = .BIG) : look mem d = .inr (.big (bigBytes mem d), []) := by
  unfold look
  rw [isBig, if_neg nofun, if_neg nofun, if_pos rfl]

theorem look_const (isConst : d.tag = .CON ∨ d.tag = .INT) : look mem d = .inr (.const d, []) := by
  unfold look
  rcases isConst with tag | tag
  · rw [tag, if_neg nofun, if_neg nofun, if_neg nofun]
  · rw [tag, if_neg nofun, if_neg nofun, if_neg nofun]

theorem view_eq (derefs : Derefs mem c d) : view mem c = look mem d :=
  congrArg (look mem) (value_eq derefs)

theorem tree_eq (derefs : Derefs mem c d) : tree mem σ c = tree mem σ d :=
  den_of_view ((view_eq derefs).trans (view_eq derefs.self).symm)

end Trees

section WellFormed

/-- Which addresses of a heap hold terms, the functors of structures and the data of bignums -/
structure Regions where
  terms : Set ℕ
  functors : Set ℕ
  data : Set ℕ

/-- A cell of a term -/
structure IsTerm (R : Regions) (mem : ℕ → Cell) (c : Cell) : Prop where
  tag : c.tag ≠ .DAT ∧ c.tag ≠ .FWD
  ref : c.tag.isRef = true → c.index ∈ R.terms
  str : c.tag = .STR → c.index ∈ R.functors
  big : c.tag = .BIG → c.index ∈ R.data ∧
    ∀ i < ((mem c.index).numBits + 7) / 8, c.index + (i + 4) / 8 ∈ R.data

/-- A heap as term environments build it: references lead to a value, structures to a functor with
its arguments after it, bignums to data that is not used otherwise. -/
structure WellFormed (R : Regions) (mem : ℕ → Cell) (size : ℕ) : Prop where
  cells : ∀ x ∈ R.terms, IsTerm R mem (mem x)
  ends : ∀ x ∈ R.terms, ∃ d, Derefs mem (mem x) d
  functors : ∀ x ∈ R.functors,
    x < size ∧ (mem x).tag = .CON ∧ ∀ i < (mem x).arity, x + i + 1 ∈ R.terms
  data : ∀ x ∈ R.data, x ∉ R.terms ∧ x ∉ R.functors

variable {R : Regions} {mem mem' : ℕ → Cell} {size : ℕ} {c d : Cell} {x : ℕ}

theorem Derefs.isTerm (derefs : Derefs mem c d) (wf : WellFormed R mem size)
    (isTerm : IsTerm R mem c) : IsTerm R mem d := by
  obtain ⟨n, found⟩ := derefs
  induction n generalizing c with
  | zero => exact nomatch found
  | succ n ih =>
    dsimp only at found
    unfold deref at found
    split_ifs at found with isRef unbound
    · rwa [← Option.some.inj found]
    · exact ih (wf.cells _ (isTerm.ref isRef)) found
    · rwa [← Option.some.inj found]

theorem IsTerm.derefs (isTerm : IsTerm R mem c) (wf : WellFormed R mem size) :
    ∃ d, Derefs mem c d ∧ IsTerm R mem d := by
  have some : ∃ d, Derefs mem c d := by
    by_cases isRef : c.tag.isRef = true
    · obtain ⟨d, derefs⟩ := wf.ends _ (isTerm.ref isRef)
      exact ⟨d, derefs_ref isRef derefs⟩
    · exact ⟨c, derefs_value (Bool.eq_false_iff.2 isRef)⟩
  obtain ⟨d, derefs⟩ := some
  exact ⟨d, derefs, derefs.isTerm wf isTerm⟩

/-- Two terms with one value -/
structure SameValue (R : Regions) (mem : ℕ → Cell) (c d : Cell) : Prop where
  left : IsTerm R mem c
  right : IsTerm R mem d
  same : value mem c = value mem d

/-- A change of the heap that binds variables to terms -/
structure Step (R : Regions) (mem mem' : ℕ → Cell) : Prop where
  binds : Binds mem mem'
  other : ∀ x, x ∉ R.terms → mem' x = mem x
  cells : ∀ x ∈ R.terms, IsTerm R mem' (mem' x)
  ends : ∀ x ∈ R.terms, ∃ d, Derefs mem' (mem' x) d

theorem IsTerm.congr (isTerm : IsTerm R mem c) (same : ∀ x ∈ R.data, mem' x = mem x) :
    IsTerm R mem' c := by
  refine ⟨isTerm.tag, isTerm.ref, isTerm.str, fun isBig => ?_⟩
  obtain ⟨head, rest⟩ := isTerm.big isBig
  rw [same _ head]
  exact ⟨head, rest⟩

theorem Step.data (step : Step R mem mem') (wf : WellFormed R mem size) (x : ℕ)
    (data : x ∈ R.data) : mem' x = mem x :=
  step.other x (wf.data x data).1

theorem Step.functor (step : Step R mem mem') (wf : WellFormed R mem size) (x : ℕ)
    (functor : x ∈ R.functors) : mem' x = mem x := by
  apply step.binds.kept
  rw [(wf.functors x functor).2.1]
  rfl

theorem Step.trans {mem'' : ℕ → Cell} (first : Step R mem mem') (later : Step R mem' mem'') :
    Step R mem mem'' where
  binds := first.binds.trans later.binds
  other := fun x other => (later.other x other).trans (first.other x other)
  cells := later.cells
  ends := later.ends

theorem Step.wellFormed (step : Step R mem mem') (wf : WellFormed R mem size) :
    WellFormed R mem' size where
  cells := step.cells
  ends := step.ends
  functors := fun x functor => by
    rw [step.functor wf x functor]
    exact wf.functors x functor
  data := wf.data

theorem Step.isTerm (step : Step R mem mem') (wf : WellFormed R mem size)
    (isTerm : IsTerm R mem c) : IsTerm R mem' c :=
  isTerm.congr (step.data wf)

theorem Step.value_after (step : Step R mem mem') (wf : WellFormed R mem size)
    (isTerm : IsTerm R mem c) : value mem' c = value mem' (value mem c) := by
  obtain ⟨d, derefs, isTerm'⟩ := isTerm.derefs wf
  obtain ⟨d', derefs', _⟩ := (step.isTerm wf isTerm').derefs (step.wellFormed wf)
  rw [value_eq derefs, value_eq derefs', value_eq (derefs.after step.binds derefs')]

theorem Step.sameValue (step : Step R mem mem') (wf : WellFormed R mem size)
    (same : SameValue R mem c d) : SameValue R mem' c d where
  left := step.isTerm wf same.left
  right := step.isTerm wf same.right
  same := by rw [step.value_after wf same.left, step.value_after wf same.right, same.same]

theorem Step.cell (step : Step R mem mem') (wf : WellFormed R mem size) (term : x ∈ R.terms) :
    SameValue R mem' (mem x) (mem' x) where
  left := step.isTerm wf (wf.cells x term)
  right := step.cells x term
  same := by
    rcases step.binds x with same | isVar
    · rw [same]
    · obtain ⟨d, derefs⟩ := step.ends x term
      rw [value_eq derefs]
      apply value_eq
      apply derefs_ref isVar.1
      rwa [isVar.2]

theorem args_related {R : Cell → Cell → Prop} {mem mem' : ℕ → Cell} {s t f : Cell}
    (related : ∀ i < f.arity, R (mem (s.index + i + 1)) (mem' (t.index + i + 1))) :
    List.Forall₂ R (args mem s f) (args mem' t f) := by
  unfold args
  rw [List.forall₂_map_left_iff, List.forall₂_map_right_iff, List.forall₂_same]
  exact fun i small => related i (List.mem_range.1 small)

theorem bigBytes_congr (isTerm : IsTerm R mem c) (isBig : c.tag = .BIG)
    (same : ∀ x ∈ R.data, mem' x = mem x) : bigBytes mem' c = bigBytes mem c := by
  obtain ⟨head, rest⟩ := isTerm.big isBig
  unfold bigBytes
  dsimp only
  rw [same _ head]
  congr 1
  apply List.map_congr_left
  intro i small
  unfold bigByte
  rw [same _ (rest i (List.mem_range.1 small))]

theorem Step.look_after (step : Step R mem mem') (wf : WellFormed R mem size)
    (isTerm : IsTerm R mem d) (notRef : d.tag.isRef = false) : ∃ l below below',
      look mem d = .inr (l, below) ∧ look mem' d = .inr (l, below') ∧
        List.Forall₂ (SameValue R mem') below below' := by
  have rest := isTerm.tag
  cases tag : d.tag with
  | STR =>
    have functor := isTerm.str tag
    have same := step.functor wf _ functor
    refine ⟨_, _, _, look_str tag, by rw [look_str tag, same], ?_⟩
    exact args_related fun i small =>
      step.cell wf ((wf.functors _ functor).2.2 i small)
  | BIG =>
    have same := bigBytes_congr isTerm tag (step.data wf)
    exact ⟨_, _, _, look_big tag, by rw [look_big tag, same], .nil⟩
  | CON => exact ⟨_, _, _, look_const (.inl tag), look_const (.inl tag), .nil⟩
  | INT => exact ⟨_, _, _, look_const (.inr tag), look_const (.inr tag), .nil⟩
  | DAT => exact absurd tag rest.1
  | FWD => exact absurd tag rest.2
  | REF | RFW =>
    rw [tag] at notRef
    exact nomatch notRef

theorem step_update (wf : WellFormed R mem size) (isVar : IsVar mem x) (term : x ∈ R.terms)
    (isTerm : IsTerm R mem c) (derefs : Derefs (Function.update mem x c) c d) :
    Step R mem (Function.update mem x c) := by
  have binds := Binds.update isVar c
  have other (y : ℕ) (apart : y ∉ R.terms) : Function.update mem x c y = mem y := by
    apply Function.update_of_ne
    rintro rfl
    exact apart term
  have data (y : ℕ) (data : y ∈ R.data) : Function.update mem x c y = mem y :=
    other y (wf.data y data).1
  refine ⟨binds, other, fun y term' => ?_, fun y term' => ?_⟩
  · by_cases here : y = x
    · rw [here, Function.update_self]
      exact isTerm.congr data
    · rw [Function.update_of_ne here]
      exact (wf.cells y term').congr data
  · by_cases here : y = x
    · rw [here, Function.update_self]
      exact ⟨d, derefs⟩
    · rw [Function.update_of_ne here]
      obtain ⟨e, before⟩ := wf.ends y term'
      have later : ∃ e', Derefs (Function.update mem x c) e e' := by
        by_cases isRef : e.tag.isRef = true
        · obtain ⟨n, found⟩ := before
          have own := (isVar_of_deref found isRef).2
          by_cases there : e.index = x
          · refine ⟨d, derefs_ref isRef ?_⟩
            rw [there, Function.update_self]
            exact derefs
          · refine ⟨e, finds_deref_self fun _ => ?_⟩
            rw [Function.update_of_ne there, own]
        · exact ⟨e, derefs_value (Bool.eq_false_iff.2 isRef)⟩
      obtain ⟨e', later⟩ := later
      exact ⟨e', before.after binds later⟩

end WellFormed

end Epilog.Common.HeapTrees
