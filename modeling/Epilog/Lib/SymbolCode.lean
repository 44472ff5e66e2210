/- Module: Epilog/Lib/SymbolCode
   source: none (library)
   digest: Remainders taken symbol by symbol: the changes they detect, and checks made of them. -/

import Mathlib.Data.List.Basic
import Mathlib.Data.Nat.Notation

set_option autoImplicit false

namespace Epilog.Lib.SymbolCode

section Distance

variable {α : Type} [DecidableEq α]

/-- The number of places in which two words of one length differ -/
def distance : List α → List α → ℕ
  | x :: xs, y :: ys => (if x = y then 0 else 1) + distance xs ys
  | _, _ => 0

theorem distance_append {xs xs' ys ys' : List α} (same : xs.length = xs'.length) :
    distance (xs ++ ys) (xs' ++ ys') = distance xs xs' + distance ys ys' := by
  induction xs generalizing xs' with
  | nil =>
    obtain rfl : xs' = [] := List.eq_nil_of_length_eq_zero same.symm
    exact (Nat.zero_add _).symm
  | cons x xs ih =>
    cases xs' with
    | nil => cases same
    | cons x' xs' =>
      simp only [List.cons_append, distance]
      rw [ih (Nat.succ.inj same), Nat.add_assoc]

theorem eq_of_distance_zero {xs ys : List α} (same : xs.length = ys.length)
    (zero : distance xs ys = 0) : xs = ys := by
  induction xs generalizing ys with
  | nil => exact (List.eq_nil_of_length_eq_zero same.symm).symm
  | cons x xs ih =>
    cases ys with
    | nil => cases same
    | cons y ys =>
      rw [distance] at zero
      split at zero
      case isTrue equal =>
        rw [equal, ih (Nat.succ.inj same) (by omega)]
      case isFalse => omega

theorem distance_self (xs : List α) : distance xs xs = 0 := by
  induction xs with
  | nil => rfl
  | cons x xs ih => rw [distance, if_pos rfl, ih]

/-- Two words that differ in one place -/
theorem exists_of_distance_one {xs ys : List α} (same : xs.length = ys.length)
    (one : distance xs ys = 1) :
    ∃ front x y back, x ≠ y ∧ xs = front ++ x :: back ∧ ys = front ++ y :: back := by
  induction xs generalizing ys with
  | nil => simp [distance] at one
  | cons x xs ih =>
    cases ys with
    | nil => cases same
    | cons y ys =>
      have lengths : xs.length = ys.length := Nat.succ.inj same
      rw [distance] at one
      split at one
      case isTrue equal =>
        obtain ⟨front, x', y', back, apart, first, second⟩ := ih lengths (by omega)
        refine ⟨x :: front, x', y', back, apart, ?_, ?_⟩
        · rw [first, List.cons_append]
        · rw [second, equal, List.cons_append]
      case isFalse apart =>
        have rest := eq_of_distance_zero lengths (by omega)
        exact ⟨[], x, y, xs, apart, rfl, by rw [rest, List.nil_append]⟩

theorem distance_map {β : Type} [DecidableEq β] {f : α → β} {xs ys : List α}
    (apart : ∀ x ∈ xs, ∀ y ∈ ys, f x = f y → x = y) :
    distance (xs.map f) (ys.map f) = distance xs ys := by
  induction xs generalizing ys with
  | nil => rfl
  | cons x xs ih =>
    cases ys with
    | nil => rfl
    | cons y ys =>
      have heads : f x = f y ↔ x = y :=
        ⟨apart x List.mem_cons_self y List.mem_cons_self, fun equal => by rw [equal]⟩
      simp only [List.map_cons, distance, heads]
      rw [ih fun x' memX y' memY =>
        apart x' (List.mem_cons_of_mem x memX) y' (List.mem_cons_of_mem y memY)]

end Distance

section Remainder

variable {ρ σ : Type} {step : ρ → σ → ρ} {holds : ρ → Prop} {symbol : σ → Prop}

/-- A step that can be undone when either the remainder or the symbol is known tells two words apart
that differ in one symbol. -/
theorem foldl_ne_of_single (keeps : ∀ r v, holds r → symbol v → holds (step r v))
    (undo : ∀ v r r', holds r → holds r' → symbol v → step r v = step r' v → r = r')
    (told : ∀ r v v', symbol v → symbol v' → step r v = step r v' → v = v')
    {r : ρ} (start : holds r) {front back : List σ} {x y : σ} (apart : x ≠ y)
    (symbolX : ∀ v ∈ front ++ x :: back, symbol v) (symbolY : symbol y) :
    (front ++ x :: back).foldl step r ≠ (front ++ y :: back).foldl step r := by
  have after : ∀ (vs : List σ) (r : ρ), holds r → (∀ v ∈ vs, symbol v) →
      holds (vs.foldl step r) := by
    intro vs
    induction vs with
    | nil => exact fun r start _ => start
    | cons v vs ih =>
      exact fun r start each => ih _ (keeps r v start (each v List.mem_cons_self))
        fun v' mem => each v' (List.mem_cons_of_mem v mem)
  have back_inj : ∀ (vs : List σ) (r r' : ρ), holds r → holds r' → (∀ v ∈ vs, symbol v) →
      vs.foldl step r = vs.foldl step r' → r = r' := by
    intro vs
    induction vs with
    | nil => exact fun r r' _ _ _ equal => equal
    | cons v vs ih =>
      intro r r' first second each equal
      have now := each v List.mem_cons_self
      exact undo v r r' first second now (ih _ _ (keeps r v first now) (keeps r' v second now)
        (fun v' mem => each v' (List.mem_cons_of_mem v mem)) equal)
  have middle := after front r start fun v mem => symbolX v (List.mem_append_left _ mem)
  have readX := symbolX x (List.mem_append_right front List.mem_cons_self)
  intro equal
  rw [List.foldl_append, List.foldl_append] at equal
  have afterX := keeps _ x middle readX
  have afterY := keeps _ y middle symbolY
  have rest : ∀ v ∈ back, symbol v := fun v mem =>
    symbolX v (List.mem_append_right front (List.mem_cons_of_mem x mem))
  exact apart (told _ x y readX symbolY (back_inj back _ _ afterX afterY rest equal))

end Remainder

section Linear

variable {w : ℕ} {next : BitVec w → BitVec w}

/-- The remainder that symbols leave, when one more of them moves the remainder on by `next` -/
def remainder (next : BitVec w → BitVec w) (r : BitVec w) (symbols : List (BitVec w)) : BitVec w :=
  symbols.foldl (fun r v => next r ^^^ v) r

/-- What a remainder and some symbols leave, apart from each other -/
theorem remainder_xor (linear : ∀ a b, next (a ^^^ b) = next a ^^^ next b) (r e : BitVec w)
    (symbols : List (BitVec w)) :
    remainder next (r ^^^ e) symbols =
      remainder next r (List.replicate symbols.length 0) ^^^ remainder next e symbols := by
  induction symbols generalizing r e with
  | nil => rfl
  | cons v vs ih =>
    simp only [remainder, List.length_cons, List.replicate_succ, List.foldl_cons] at ih ⊢
    rw [linear, BitVec.xor_assoc, ih (next r) (next e ^^^ v)]
    simp

/-- Symbols that leave `check` on their own bring a remainder to `check` added to what zeros in
their place would leave. -/
theorem remainder_checked (linear : ∀ a b, next (a ^^^ b) = next a ^^^ next b) (r goal : BitVec w)
    (symbols : List (BitVec w))
    (spelled : remainder next 0#w symbols =
      remainder next r (List.replicate symbols.length 0) ^^^ goal) :
    remainder next r symbols = goal := by
  have split := remainder_xor linear r 0#w symbols
  rw [BitVec.xor_zero, spelled, ← BitVec.xor_assoc, BitVec.xor_self, BitVec.zero_xor] at split
  exact split

end Linear

end Epilog.Lib.SymbolCode
