/- Module: Epilog/Common/Integrity
   source: src/src/common/term_serializer.cpp (integrity_check)
   digest: What the integrity check establishes for the tagged cells it visits. -/

import Epilog.Common.Deserializer
import Epilog.Lib.Run
import Mathlib.Data.Finset.Card
import Mathlib.Order.Interval.Finset.Nat

set_option autoImplicit false

namespace Epilog.Common.Integrity

open Epilog.Common.Term Epilog.Common.Heap Epilog.Common.Deserializer Epilog.Lib.Run

section Chains

variable (mem : ℕ → Cell)

/-- The chain of references from a cell ends, in a value or in an unbound variable. -/
inductive Ends : Cell → Prop
  | value {c : Cell} (plain : c.tag.isRef = false) : Ends c
  | unbound {c : Cell} (ref : c.tag.isRef) (target : (mem c.index).tag.isRef)
      (self : (mem c.index).index = c.index) : Ends c
  | step {c : Cell} (ref : c.tag.isRef) (next : Ends (mem c.index)) : Ends c

end Chains

variable {mem : ℕ → Cell} {heapStart heapEnd : ℕ}

theorem checkPointer_ok {c : Cell} (done : checkPointer heapStart heapEnd c = .ok ()) :
    heapStart ≤ c.index ∧ c.index < heapEnd := by
  unfold checkPointer at done
  split_ifs at done with outside
  omega

/-- A reference whose target is in the new part of the heap and whose chain ends. -/
structure ChainOk (mem : ℕ → Cell) (heapStart heapEnd i : ℕ) : Prop where
  ref : (mem i).tag.isRef
  low : heapStart ≤ (mem i).index
  high : (mem i).index < heapEnd
  ends : Ends mem (mem i)

section RefChain

theorem checkRefChain_ok {checked checked' visit : List ℕ} {fuel index : ℕ}
    (known : ∀ i ∈ checked, ChainOk mem heapStart heapEnd i)
    (path : ∀ v ∈ visit, Ends mem (mem index) → ChainOk mem heapStart heapEnd v)
    (done : checkRefChain mem heapStart heapEnd checked fuel visit index = .ok checked') :
    (∀ i ∈ checked', ChainOk mem heapStart heapEnd i) ∧ Ends mem (mem index) ∧
      ((mem index).tag.isRef → ChainOk mem heapStart heapEnd index) := by
  induction fuel generalizing visit index with
  | zero => cases done
  | succ fuel ih =>
    rw [checkRefChain] at done
    by_cases ref : (mem index).tag.isRef = true
    · rw [if_pos ref] at done
      obtain ⟨_, pointer, done⟩ := bind_ok done
      obtain ⟨low, high⟩ := checkPointer_ok pointer
      simp only at done
      split_ifs at done with stops cycle
      · have ends : Ends mem (mem index) := by
          rcases stops with before | self
          · exact (known index before).ends
          · exact .unbound ref (by rw [self]; exact ref) (by rw [self, self])
        obtain rfl := Except.ok.inj done
        refine ⟨?_, ends, fun _ => ⟨ref, low, high, ends⟩⟩
        intro i member
        rcases List.mem_append.mp member with visited | before
        · rcases List.mem_cons.mp visited with rfl | earlier
          · exact ⟨ref, low, high, ends⟩
          · exact path i earlier ends
        · exact known i before
      · have back : Ends mem (mem (mem index).index) → Ends mem (mem index) := .step ref
        have longer : ∀ v ∈ index :: visit, Ends mem (mem (mem index).index) →
            ChainOk mem heapStart heapEnd v := by
          intro v member next
          rcases List.mem_cons.mp member with rfl | earlier
          · exact ⟨ref, low, high, back next⟩
          · exact path v earlier (back next)
        obtain ⟨known', ends, -⟩ := ih longer done
        exact ⟨known', back ends, fun _ => ⟨ref, low, high, back ends⟩⟩
    · rw [if_neg ref] at done
      obtain rfl := Except.ok.inj done
      exact ⟨known, .value (by simpa using ref), fun impossible => absurd impossible ref⟩

theorem checkPointer_error {c : Cell} {e : ReadError}
    (failed : checkPointer heapStart heapEnd c = .error e) : e.isSerializerException := by
  unfold checkPointer at failed
  split_ifs at failed
  cases failed
  rfl

theorem checkRefChain_error {checked visit : List ℕ} {fuel index : ℕ} {e : ReadError}
    (failed : checkRefChain mem heapStart heapEnd checked fuel visit index = .error e) :
    e.isSerializerException := by
  induction fuel generalizing visit index with
  | zero =>
    cases failed
    rfl
  | succ fuel ih =>
    rw [checkRefChain] at failed
    by_cases ref : (mem index).tag.isRef = true
    · rw [if_pos ref] at failed
      rcases bind_error failed with pointer | ⟨_, -, failed⟩
      · exact checkPointer_error pointer
      · simp only at failed
        split_ifs at failed
        · cases failed
          rfl
        · exact ih failed
    · rw [if_neg ref] at failed
      cases failed

theorem checkRefChain_enough {checked visit : List ℕ} {fuel index : ℕ} (more : ℕ)
    (nodup : visit.Nodup) (fresh : index ∉ visit) (here : index ∈ Finset.Ico heapStart heapEnd)
    (inside : ∀ v ∈ visit, v ∈ Finset.Ico heapStart heapEnd)
    (enough : heapEnd - heapStart < fuel + visit.length) :
    checkRefChain mem heapStart heapEnd checked (fuel + more) visit index =
      checkRefChain mem heapStart heapEnd checked fuel visit index := by
  induction fuel generalizing visit index with
  | zero =>
    have few : visit.toFinset.card ≤ (Finset.Ico heapStart heapEnd).card := by
      apply Finset.card_le_card
      intro v member
      exact inside v (List.mem_toFinset.mp member)
    rw [List.toFinset_card_of_nodup nodup, Nat.card_Ico] at few
    omega
  | succ fuel ih =>
    rw [Nat.add_right_comm, checkRefChain, checkRefChain]
    by_cases ref : (mem index).tag.isRef = true
    · rw [if_pos ref, if_pos ref]
      cases pointer : checkPointer heapStart heapEnd (mem index) with
      | error e => rfl
      | ok _ =>
        obtain ⟨low, high⟩ := checkPointer_ok pointer
        simp only [bind, Except.bind]
        split_ifs with stops cycle
        · rfl
        · rfl
        · apply ih (List.nodup_cons.mpr ⟨fresh, nodup⟩) cycle (Finset.mem_Ico.mpr ⟨low, high⟩)
          · intro v member
            rcases List.mem_cons.mp member with rfl | earlier
            · exact here
            · exact inside v earlier
          · simp only [List.length_cons]
            omega
    · rw [if_neg ref, if_neg ref]

end RefChain

section Cells

/-- What the check establishes for a tagged cell of the new part of the heap. -/
structure CellOk (mem : ℕ → Cell) (heapStart heapEnd i : ℕ) : Prop where
  chain : (mem i).tag.isRef → ChainOk mem heapStart heapEnd i
  target : (mem i).tag = .BIG ∨ (mem i).tag = .STR →
    heapStart ≤ (mem i).index ∧ (mem i).index < heapEnd
  bignum : (mem i).tag = .BIG → (mem (mem i).index).tag = .DAT
  functor : (mem i).tag = .STR → (mem (mem i).index).tag = .CON
  args : (mem i).tag = .STR →
    (mem i).index + (mem (mem i).index).arity < heapEnd ∧
      ∀ k < (mem (mem i).index).arity, argumentAllowed (mem ((mem i).index + 1 + k))

theorem checkBignum_ok {c : Cell} (done : checkBignum mem c = .ok ()) :
    (mem c.index).tag = .DAT := by
  unfold checkBignum at done
  split_ifs at done with wrong
  exact not_ne_iff.mp wrong

theorem checkFunctor_ok {c : Cell} (done : checkFunctor mem c = .ok ()) :
    (mem c.index).tag = .CON := by
  unfold checkFunctor at done
  split_ifs at done with wrong
  exact not_ne_iff.mp wrong

theorem checkFunctorArgs_ok {c : Cell} (done : checkFunctorArgs mem heapEnd c = .ok ()) :
    c.index + (mem c.index).arity < heapEnd ∧
      ∀ k < (mem c.index).arity, argumentAllowed (mem (c.index + 1 + k)) := by
  unfold checkFunctorArgs at done
  simp only at done
  split_ifs at done with short allowed
  refine ⟨by omega, ?_⟩
  intro k inside
  exact List.all_eq_true.mp allowed k (List.mem_range.mpr inside)

theorem ChainOk.cellOk {i : ℕ} (ok : ChainOk mem heapStart heapEnd i) :
    CellOk mem heapStart heapEnd i := by
  have ref := ok.ref
  constructor
  · exact fun _ => ok
  · rintro (big | str) <;> simp_all [Tag.isRef]
  · intro big
    simp [big, Tag.isRef] at ref
  · intro str
    simp [str, Tag.isRef] at ref
  · intro str
    simp [str, Tag.isRef] at ref

theorem CellOk.of_plain {i : ℕ} (plain : (mem i).tag = .INT ∨ (mem i).tag = .CON ∨
    (mem i).tag = .DAT ∨ (mem i).tag = .FWD) : CellOk mem heapStart heapEnd i := by
  constructor <;> rcases plain with tag | tag | tag | tag <;> simp [tag, Tag.isRef]

variable {used : List ℕ}

theorem checkCells_ok {checked : List ℕ} {fuel i : ℕ} (enough : heapEnd ≤ i + fuel)
    (known : ∀ a ∈ checked, ChainOk mem heapStart heapEnd a)
    (skipped : ∀ a ∈ used, (mem a).tag = .DAT → ∀ b ∈ used, a < b → a + (mem a).numCells ≤ b)
    (done : checkCells mem heapStart heapEnd used fuel i checked = .ok ()) :
    ∀ a ∈ used, i ≤ a → a < heapEnd → CellOk mem heapStart heapEnd a := by
  induction fuel generalizing i checked with
  | zero =>
    intro a _ low high
    omega
  | succ fuel ih =>
    intro a member low high
    rw [checkCells, if_neg (by omega)] at done
    -- the cells behind `i`, once the loop has moved on to `i + 1`
    have behind : ∀ {checked : List ℕ}, (∀ a ∈ checked, ChainOk mem heapStart heapEnd a) →
        checkCells mem heapStart heapEnd used fuel (i + 1) checked = .ok () → i ≠ a →
        CellOk mem heapStart heapEnd a :=
      fun known done other => ih (by omega) known done a member (by omega) high
    by_cases skip : i ∈ checked ∨ i ∉ used
    · rw [if_pos skip] at done
      by_cases here : i = a
      · subst here
        rcases skip with before | unused
        · exact (known i before).cellOk
        · exact absurd member unused
      · exact behind known done here
    · rw [if_neg skip] at done
      simp only at done
      cases tag : (mem i).tag with
      | DAT =>
        rw [tag] at done
        by_cases here : i = a
        · subst here
          exact .of_plain (by simp [tag])
        · have pos := (mem i).numCells_pos
          have inUse : i ∈ used := by
            by_contra unused
            exact skip (.inr unused)
          have jump := skipped i inUse tag a member (by omega)
          exact ih (by omega) known done a member (by omega) high
      | BIG =>
        rw [tag] at done
        obtain ⟨_, pointer, done⟩ := bind_ok done
        obtain ⟨_, bignum, done⟩ := bind_ok done
        by_cases here : i = a
        · subst here
          have target := checkPointer_ok pointer
          have data := checkBignum_ok bignum
          constructor <;> simp [tag, Tag.isRef, target, data]
        · exact behind known done here
      | STR =>
        rw [tag] at done
        obtain ⟨_, pointer, done⟩ := bind_ok done
        obtain ⟨_, functor, done⟩ := bind_ok done
        obtain ⟨_, args, done⟩ := bind_ok done
        by_cases here : i = a
        · subst here
          have target := checkPointer_ok pointer
          have con := checkFunctor_ok functor
          obtain ⟨room, allowed⟩ := checkFunctorArgs_ok args
          exact ⟨by simp [tag, Tag.isRef], fun _ => target, by simp [tag], fun _ => con,
            fun _ => ⟨room, allowed⟩⟩
        · exact behind known done here
      | REF | RFW =>
        rw [tag] at done
        obtain ⟨checked', chain, done⟩ := bind_ok done
        obtain ⟨known', -, this⟩ := checkRefChain_ok known (by simp) chain
        by_cases here : i = a
        · subst here
          exact (this (by simp [tag, Tag.isRef])).cellOk
        · exact behind known' done here
      | INT | CON | FWD =>
        rw [tag] at done
        by_cases here : i = a
        · subst here
          exact .of_plain (by simp [tag])
        · exact behind known done here

theorem checkCells_error {checked : List ℕ} {fuel i : ℕ} {e : ReadError}
    (failed : checkCells mem heapStart heapEnd used fuel i checked = .error e) :
    e.isSerializerException := by
  induction fuel generalizing i checked with
  | zero => cases failed
  | succ fuel ih =>
    rw [checkCells] at failed
    simp only at failed
    split_ifs at failed
    · exact ih failed
    · cases tag : (mem i).tag with
      | BIG =>
        rw [tag] at failed
        rcases bind_error failed with pointer | ⟨_, -, failed⟩
        · exact checkPointer_error pointer
        · rcases bind_error failed with bignum | ⟨_, -, failed⟩
          · unfold checkBignum at bignum
            split_ifs at bignum
            cases bignum
            rfl
          · exact ih failed
      | STR =>
        rw [tag] at failed
        rcases bind_error failed with pointer | ⟨_, -, failed⟩
        · exact checkPointer_error pointer
        · rcases bind_error failed with functor | ⟨_, -, failed⟩
          · unfold checkFunctor at functor
            split_ifs at functor
            cases functor
            rfl
          · rcases bind_error failed with args | ⟨_, -, failed⟩
            · unfold checkFunctorArgs at args
              simp only at args
              split_ifs at args
              all_goals
                cases args
                rfl
            · exact ih failed
      | REF | RFW =>
        rw [tag] at failed
        rcases bind_error failed with chain | ⟨_, -, failed⟩
        · exact checkRefChain_error chain
        · exact ih failed
      | DAT | INT | CON | FWD =>
        rw [tag] at failed
        exact ih failed

theorem integrityCheck_ok
    (skipped : ∀ a ∈ used, (mem a).tag = .DAT → ∀ b ∈ used, a < b → a + (mem a).numCells ≤ b)
    (done : integrityCheck mem heapStart heapEnd used = .ok ()) :
    ∀ a ∈ used, heapStart ≤ a → a < heapEnd → CellOk mem heapStart heapEnd a :=
  checkCells_ok (by omega) (by simp) skipped done

end Cells

end Epilog.Common.Integrity
