/- Module: Epilog/Common/TermWalk
   source: src/src/common/term.hpp, src/src/common/term.cpp (deref, functor, arg, atom_name),
     src/src/common/term_env.hpp (term_dfs_iterator, vars_of)
   digest: Access to the terms of a heap, and the walk over all subterms of a term. -/

import Epilog.Common.Heap
import Epilog.Lib.Fuel

set_option autoImplicit false

namespace Epilog.Common.TermWalk

open Epilog.Common.Term Epilog.Common.Heap Epilog.Lib.FiniteMap Epilog.Lib.Fuel
  Epilog.Lib.Run

/-- `term()`, whose bits are those of the reference to cell 0. -/
def noTerm : Cell := ⟨0⟩

section Names

/-- `name` of a direct constant: up to the first byte without its high bit. -/
def name (c : Cell) : Bytes :=
  (((List.range 7).map fun i => c.value / 2 ^ (53 - i * 8) % 256).takeWhile (128 ≤ ·)).map
    fun b => UInt8.ofNat (b % 128)

def atomName (env : TermEnv) (c : Cell) : Bytes :=
  if c.isDirect then name c else (env.atomIndexToName.lookup c.atomIndex).getD []

end Names

section Access

variable (mem : ℕ → Cell)

/-- `deref`: a chain of references may run in a circle. -/
def deref : (fuel : ℕ) → Cell → Option Cell
  | 0, _ => none
  | fuel + 1, c =>
    if c.tag.isRef then
      if mem c.index = c then some c else deref fuel (mem c.index)
    else some c

/-- `functor` of a structure, which throws when the structure points at no constant. -/
def functor (s : Cell) : Option Cell :=
  if (mem s.index).tag = .CON then some (mem s.index) else none

/-- The argument cells of a structure with the functor `f`. -/
def args (s f : Cell) : List Cell := (List.range f.arity).map fun i => mem (s.index + i + 1)

def arg (fuel : ℕ) (c : Cell) (i : ℕ) : Option Cell := do
  let s ← deref mem fuel c
  deref mem fuel (mem (s.index + i + 1))

theorem deref_lasting (c : Cell) : Lasting fun n => deref mem n c := by
  intro n m d more found
  dsimp only at found ⊢
  induction n generalizing m c with
  | zero => exact nomatch found
  | succ n ih =>
    obtain ⟨m, rfl⟩ : ∃ k, m = k + 1 := ⟨m - 1, by omega⟩
    unfold deref at found ⊢
    split_ifs at found ⊢
    · exact found
    · exact ih _ m (by omega) found
    · exact found

theorem arg_lasting (c : Cell) (i : ℕ) : Lasting fun n => arg mem n c i := by
  intro n m d more found
  obtain ⟨s, first, found⟩ := Option.bind_eq_some_iff.1 found
  exact Option.bind_eq_some_iff.2
    ⟨s, deref_lasting mem c n m s more first, deref_lasting mem _ n m d more found⟩

theorem deref_end {mem : ℕ → Cell} {n : ℕ} {c d : Cell} (found : deref mem n c = some d) :
    d.tag.isRef = true → mem d.index = d := by
  induction n generalizing c with
  | zero => exact nomatch found
  | succ n ih =>
    unfold deref at found
    split_ifs at found with isRef unbound
    · rw [← Option.some.inj found]
      exact fun _ => unbound
    · exact ih found
    · rw [← Option.some.inj found]
      exact fun ref => absurd ref isRef

theorem finds_deref_self {mem : ℕ → Cell} {d : Cell}
    (ends : d.tag.isRef = true → mem d.index = d) : Finds (fun n => deref mem n d) d := by
  refine ⟨1, ?_⟩
  simp only [deref]
  split_ifs with isRef unbound
  · rfl
  · exact absurd (ends isRef) unbound
  · rfl

end Access

section Walk

variable (mem : ℕ → Cell)

/-- A term as the walk sees it: its value, and the arguments to visit before it. -/
def expandTerm (t : Cell) (fuel : ℕ) : Option (Cell × List Cell) := do
  let p ← deref mem fuel t
  if p.tag = .STR then
    let f ← functor mem p
    return (p, args mem p f)
  else return (p, [])

/-- `for_each(begin(t), end(t), visit)`: the arguments from left to right and then the structure;
the stack of the iterator is that of the recursion. The end of the iteration is `term()` with an
empty stack, which a term that is just the variable in cell 0 is from the start. -/
def forEach {σ ε : Type} (visit : Cell → σ → Except (Halt ε) σ) (fuel : ℕ) (t : Cell) (s : σ) :
    Except (Halt ε) σ := do
  let first ← fetch (deref mem fuel t)
  if first = noTerm then return s
  else traverse (expandTerm mem) (fun v s _ => visit v s) fuel t s

def varsOf {ε : Type} (fuel : ℕ) (t : Cell) : Except (Halt ε) (Finset Cell) :=
  forEach mem (fun v vars => .ok (if v.tag.isRef then insert v vars else vars)) fuel t ∅

/-- `t` occurs in the term: it is the term or one of its subterms. -/
abbrev Within (v t : Cell) : Prop := Occurs (expandTerm mem) v t

/-- The walk over the term comes to an end. -/
abbrev Ends (t : Cell) : Prop := Through (expandTerm mem) (fun _ => True) t

theorem expandTerm_lasting (t : Cell) : Lasting (expandTerm mem t) := by
  intro n m x more found
  obtain ⟨p, first, found⟩ := Option.bind_eq_some_iff.1 found
  exact Option.bind_eq_some_iff.2 ⟨p, deref_lasting mem t n m p more first, found⟩

variable {mem}

theorem finds_expandTerm {t p : Cell} (value : Finds (fun n => deref mem n t) p)
    {x : Cell × List Cell} (found : Finds (expandTerm mem p) x) : Finds (expandTerm mem t) x := by
  obtain ⟨n, value⟩ := value
  obtain ⟨m, found⟩ := found
  obtain ⟨p', first, found⟩ := Option.bind_eq_some_iff.1 found
  have same : p' = p := Finds.unique (deref_lasting mem p) ⟨m, first⟩
    (finds_deref_self (deref_end value))
  exact ⟨n, Option.bind_eq_some_iff.2 ⟨p, value, same ▸ found⟩⟩

theorem finds_expandTerm_value {t : Cell} {x : Cell × List Cell}
    (found : Finds (expandTerm mem t) x) : Finds (fun n => deref mem n t) x.1 := by
  obtain ⟨n, found⟩ := found
  obtain ⟨p, value, found⟩ := Option.bind_eq_some_iff.1 found
  refine ⟨n, value.trans ?_⟩
  split_ifs at found
  · obtain ⟨f, _, found⟩ := Option.bind_eq_some_iff.1 found
    rw [← Option.some.inj found]
  · rw [← Option.some.inj found]

theorem finds_expandTerm_of {t p : Cell} (value : Finds (fun n => deref mem n t) p)
    {x : Cell × List Cell} (found : Finds (expandTerm mem t) x) : Finds (expandTerm mem p) x := by
  obtain ⟨n, found⟩ := found
  obtain ⟨p', first, found⟩ := Option.bind_eq_some_iff.1 found
  have own : p' = p := Finds.unique (deref_lasting mem t) ⟨n, first⟩ value
  subst own
  obtain ⟨m, self⟩ := finds_deref_self (deref_end first)
  exact ⟨m, Option.bind_eq_some_iff.2 ⟨p', self, found⟩⟩

private theorem notBound {t : Cell} (isStr : t.tag = .STR) :
    t.tag.isRef = true → mem t.index = t := by
  rw [isStr]
  exact nofun

theorem finds_deref_str {t : Cell} (isStr : t.tag = .STR) :
    Finds (fun n => deref mem n t) t := finds_deref_self (notBound isStr)

theorem finds_expandTerm_str {t f : Cell} (isStr : t.tag = .STR)
    (atFunctor : functor mem t = some f) : Finds (expandTerm mem t) (t, args mem t f) := by
  obtain ⟨n, self⟩ := finds_deref_str isStr
  refine ⟨n, Option.bind_eq_some_iff.2 ⟨t, self, ?_⟩⟩
  simp [isStr, atFunctor]

theorem Ends.hasFunctor {t : Cell} (ends : Ends mem t) (isStr : t.tag = .STR) :
    ∃ f, functor mem t = some f := by
  cases ends with
  | node here _ _ =>
    obtain ⟨n, found⟩ := here
    obtain ⟨p, value, found⟩ := Option.bind_eq_some_iff.1 found
    have self : p = t :=
      Finds.unique (deref_lasting mem t) ⟨n, value⟩ (finds_deref_str isStr)
    rw [self, if_pos isStr] at found
    obtain ⟨f, atFunctor, _⟩ := Option.bind_eq_some_iff.1 found
    exact ⟨f, atFunctor⟩

theorem Within.of_arg {t a v : Cell} {f : Cell} {i : ℕ} (isStr : t.tag = .STR)
    (hasFunctor : functor mem t = some f) (small : i < f.arity)
    (value : Finds (fun n => arg mem n t i) a) (within : Within mem v a) : Within mem v t := by
  obtain ⟨n, found⟩ := value
  obtain ⟨s, self, chain⟩ := Option.bind_eq_some_iff.1 found
  have same : s = t := Finds.unique (deref_lasting mem t) ⟨n, self⟩ (finds_deref_str isStr)
  subst same
  refine .inside (finds_expandTerm_str isStr hasFunctor) (List.mem_map.2 ⟨i, List.mem_range.2 small, rfl⟩) ?_
  cases within with
  | root found => exact .root (finds_expandTerm ⟨n, chain⟩ found)
  | inside found mem occurs => exact .inside (finds_expandTerm ⟨n, chain⟩ found) mem occurs

theorem Ends.of_noTerm {t : Cell} (bare : Finds (fun n => deref mem n t) noTerm) :
    Ends mem t := by
  obtain ⟨n, bare⟩ := bare
  have here : expandTerm mem t n = some (noTerm, []) := by
    have isRef : noTerm.tag = .REF := by decide
    refine Option.bind_eq_some_iff.2 ⟨noTerm, bare, ?_⟩
    simp [isRef]
  exact .node ⟨n, here⟩ nofun trivial

section ForEach

variable {σ ε : Type} {visit : Cell → σ → Except (Halt ε) σ}

theorem forEach_ends {n : ℕ} {t : Cell} {s s' : σ} (done : forEach mem visit n t s = .ok s') :
    Ends mem t := by
  obtain ⟨first, found, done⟩ := bind_ok done
  split_ifs at done with bare
  · exact .of_noTerm ⟨n, bare ▸ fetch_ok found⟩
  · exact (traverse_inv _ _ _ (fun _ => True) (fun _ _ _ _ _ => trivial)
      (fun _ _ _ _ _ => trivial) n t s).1 s' done

theorem forEach_quiet (total : ∀ v s, ∃ s', visit v s = .ok s') (n : ℕ) (t : Cell) (s : σ)
    (e : ε) : forEach mem visit n t s ≠ .error (.thrown e) := by
  intro failed
  rcases bind_error failed with missing | ⟨first, _, failed⟩
  · exact fetch_not_thrown _ e missing
  · split_ifs at failed
    · exact nomatch failed
    · apply traverse_quiet ?_ n t s e failed
      intro v s _ e thrown
      obtain ⟨s', ok⟩ := total v s
      rw [ok] at thrown
      exact nomatch thrown

theorem forEach_adds {holds : σ → Prop} {adds : Cell → Prop}
    (each : ∀ v s s', visit v s = .ok s' → (holds s' ↔ holds s ∨ adds v)) {n : ℕ} {t : Cell}
    {s s' : σ} (done : forEach mem visit n t s = .ok s') :
    holds s' ↔
      holds s ∨ ¬Finds (fun n => deref mem n t) noTerm ∧ ∃ w, Within mem w t ∧ adds w := by
  obtain ⟨first, found, done⟩ := bind_ok done
  have value : Finds (fun n => deref mem n t) first := ⟨n, fetch_ok found⟩
  split_ifs at done with bare
  · have same : s = s' := Except.ok.inj done
    simp [same, bare ▸ value]
  · have walked : ¬Finds (fun n => deref mem n t) noTerm :=
      fun other => bare (value.unique (deref_lasting mem t) other)
    rw [traverse_adds (expandTerm_lasting mem) (fun v s _ s' => each v s s') n t s s' done]
    simp [walked]

theorem forEach_keeps {inv : σ → Prop} (each : ∀ v s s', inv s → visit v s = .ok s' → inv s')
    {n : ℕ} {t : Cell} {s s' : σ} (start : inv s) (done : forEach mem visit n t s = .ok s') :
    inv s' := by
  obtain ⟨first, _, done⟩ := bind_ok done
  split_ifs at done
  · exact Except.ok.inj done ▸ start
  · exact traverse_keeps (fun v s _ s' => each v s s') start done

theorem Ends.settles (visit : Cell → σ → Except (Halt ε) σ) (total : ∀ v s, ∃ s', visit v s = .ok s') {t : Cell} (ends : Ends mem t)
    (s : σ) : ∃ s', Settles (fun n => forEach mem visit n t s) (.ok s') := by
  obtain ⟨s', walked⟩ := Through.settles (fun v s _ => visit v s) (expandTerm_lasting mem)
    (fun v _ s => (total v s).imp fun s' ok => ⟨0, fun _ _ => ok⟩) ends s
  obtain ⟨p, value⟩ : ∃ p, Finds (fun n => deref mem n t) p := by
    cases ends with
    | node here => exact ⟨_, finds_expandTerm_value here⟩
  by_cases bare : p = noTerm
  · refine ⟨s, (settles_fetch (deref_lasting mem t) value).bind ?_⟩
    simp only [bare, if_true]
    exact .const _
  · refine ⟨s', (settles_fetch (deref_lasting mem t) value).bind ?_⟩
    simp only [bare, if_false]
    exact walked

theorem mem_varsOf {n : ℕ} {t : Cell} {vars : Finset Cell}
    (done : (varsOf mem n t : Except (Halt ε) _) = .ok vars) (v : Cell) :
    v ∈ vars ↔ ¬Finds (fun n => deref mem n t) noTerm ∧ Within mem v t ∧ v.tag.isRef = true := by
  have each : ∀ w s s', (Except.ok (if w.tag.isRef then insert w s else s) :
      Except (Halt ε) (Finset Cell)) = .ok s' → (v ∈ s' ↔ v ∈ s ∨ w = v ∧ v.tag.isRef = true) := by
    intro w s s' step
    rw [← Except.ok.inj step]
    split_ifs with isRef
    · rw [Finset.mem_insert, or_comm]
      refine or_congr_right ⟨?_, fun eq => eq.1.symm⟩
      rintro rfl
      exact ⟨rfl, isRef⟩
    · refine (or_iff_left ?_).symm
      rintro ⟨rfl, ref⟩
      exact isRef ref
  rw [forEach_adds each done]
  simp

end ForEach

end Walk

end Epilog.Common.TermWalk
