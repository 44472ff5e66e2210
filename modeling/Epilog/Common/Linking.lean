/- Module: Epilog/Common/Linking
   source: src/src/common/term_serializer.cpp (read, read_all_header)
   digest: The heap after the reader has read the header and patched the pointers. -/

import Epilog.Common.Placement

set_option autoImplicit false

namespace Epilog.Common.Linking

open Epilog.Common.Term Epilog.Common.Heap Epilog.Common.Deserializer Epilog.Common.Placement
  Epilog.Lib.FiniteMap Epilog.Lib.Run

section Header

/-- What a part of the header does: it appends variables and adds entries to the index. -/
structure HeaderRead (env env' : TermEnv) (termIndex termIndex' : TermIndex) : Prop where
  grows : env.size ≤ env'.size
  vars : ∀ a, env.size ≤ a → a < env'.size → env'.mem a = Cell.make .REF a
  kept : ∀ a, a < env.size ∨ env'.size ≤ a → env'.mem a = env.mem a
  keys : ∀ c i, termIndex'.lookup c = some i → termIndex.lookup c = some i ∨
    (c.tag = .CON ∧ ∃ name, env'.atomNameToIndex.lookup name = some i) ∨
    (c.tag = .REF ∧ env.size ≤ i ∧ i < env'.size)
  atoms : env.AtomsOk → env'.AtomsOk
  names : ∀ name i, env.atomNameToIndex.lookup name = some i →
    env'.atomNameToIndex.lookup name = some i

theorem HeaderRead.refl (env : TermEnv) (termIndex : TermIndex) :
    HeaderRead env env termIndex termIndex where
  grows := le_rfl
  vars a low high := by omega
  kept _ _ := rfl
  keys _ _ found := .inl found
  atoms ok := ok
  names _ _ known := known

theorem HeaderRead.trans {env env₁ env' : TermEnv} {termIndex termIndex₁ termIndex' : TermIndex}
    (first : HeaderRead env env₁ termIndex termIndex₁)
    (second : HeaderRead env₁ env' termIndex₁ termIndex') :
    HeaderRead env env' termIndex termIndex' where
  grows := first.grows.trans second.grows
  vars a low high := by
    by_cases old : a < env₁.size
    · rw [second.kept a (.inl old)]
      exact first.vars a low old
    · exact second.vars a (by omega) high
  kept a outside := by
    have := first.grows
    have := second.grows
    rw [second.kept a (by omega), first.kept a (by omega)]
  keys c i found := by
    rcases second.keys c i found with old | ⟨con, name, known⟩ | ⟨ref, low, high⟩
    · rcases first.keys c i old with older | ⟨con, name, known⟩ | ⟨ref, low, high⟩
      · exact .inl older
      · exact .inr (.inl ⟨con, name, second.names name i known⟩)
      · exact .inr (.inr ⟨ref, low, high.trans_le second.grows⟩)
    · exact .inr (.inl ⟨con, name, known⟩)
    · exact .inr (.inr ⟨ref, first.grows.trans low, high⟩)
  atoms ok := second.atoms (first.atoms ok)
  names name i known := second.names name i (first.names name i known)

theorem lookup_indexTerm (termIndex : TermIndex) (t c : Cell) (newId i : ℕ)
    (found : (indexTerm termIndex t newId).lookup c = some i) :
    termIndex.lookup c = some i ∨ (c = t ∧ i = newId) := by
  unfold indexTerm at found
  split_ifs at found
  · exact .inl found
  · rw [lookup_insert_ite] at found
    split_ifs at found with same
    · exact .inr ⟨same, (Option.some.inj found).symm⟩
    · exact .inl found

theorem tag_toAtom (c : Cell) : c.toAtom.tag = c.tag := by
  simp [Cell.toAtom, Cell.setValue]

theorem readIndex_read (env : TermEnv) (termIndex : TermIndex) (c : Cell) (name : Bytes)
    (entry : c.tag = .REF ∨ c.tag = .CON) (fits : env.size < 2 ^ 61) :
    HeaderRead env (readIndex env termIndex c name).1 termIndex
      (readIndex env termIndex c name).2 := by
  unfold readIndex
  split_ifs with con
  · have sameMem : (env.resolveAtomIndex name).2.mem = env.mem ∧
        (env.resolveAtomIndex name).2.size = env.size := by
      unfold TermEnv.resolveAtomIndex
      split <;> exact ⟨rfl, rfl⟩
    refine ⟨sameMem.2.ge, ?_, ?_, ?_, ?_, ?_⟩
    · intro a low high
      rw [sameMem.2] at high
      omega
    · intro a _
      rw [sameMem.1]
    · intro d i found
      rcases lookup_indexTerm _ _ _ _ _ found with old | ⟨rfl, rfl⟩
      · exact .inl old
      · right; left
        exact ⟨by rw [tag_toAtom, con], name, TermEnv.lookup_resolveAtomIndex env name⟩
    · exact fun ok => TermEnv.resolveAtomIndex_ok ok name
    · exact fun other i known => TermEnv.lookup_resolveAtomIndex_of_some known
  · have ref : c.tag = .REF := by
      rcases entry with ref | impossible
      · exact ref
      · exact absurd impossible con
    simp only [TermEnv.newRef, TermEnv.append, TermEnv.setName, allocAddr_one]
    refine ⟨by simp, ?_, ?_, ?_, ?_, fun _ _ known => known⟩
    · intro a low high
      have here : a = env.size := by simp only at high; omega
      simp [here]
    · intro a outside
      have other : a ≠ env.size := by simp only at outside; omega
      simp [Function.update_of_ne other]
    · intro d i found
      rcases lookup_indexTerm _ _ _ _ _ found with old | ⟨rfl, rfl⟩
      · exact .inl old
      · right; right
        rw [Cell.index, Cell.value_make_of_lt .REF fits]
        exact ⟨ref, le_rfl, Nat.lt_succ_self _⟩
    · exact fun ok => ⟨ok.inverse, ok.below⟩

theorem readEncodedString_length {cells rest : List Cell} {name : Bytes}
    (done : readEncodedString cells = .ok (name, rest)) : rest.length < cells.length := by
  induction cells generalizing name with
  | nil => cases done
  | cons c cells ih =>
    rw [readEncodedString] at done
    split_ifs at done
    · cases done
      simp
    · obtain ⟨⟨name', rest'⟩, read, same⟩ := bind_ok done
      cases same
      have := ih read
      simp only [List.length_cons]
      omega

theorem readIndex_bounds (env : TermEnv) (termIndex : TermIndex) (c : Cell) (name : Bytes) :
    (readIndex env termIndex c name).1.size ≤ env.size + 1 ∧
      (readIndex env termIndex c name).1.atomNameToIndex.keys.card ≤
        env.atomNameToIndex.keys.card + 1 := by
  unfold readIndex
  split_ifs
  · refine ⟨?_, TermEnv.card_resolveAtomIndex_le env name⟩
    simp only [TermEnv.resolveAtomIndex]
    split <;> simp
  · simp [TermEnv.newRef, TermEnv.append, TermEnv.setName, allocAddr_one]

theorem readRemap_ok {fuel : ℕ} {env env' : TermEnv} {termIndex termIndex' : TermIndex}
    {cells body : List Cell} (fits : env.size + cells.length ≤ 2 ^ 61)
    (done : readRemap fuel env termIndex cells = .ok (env', termIndex', body)) :
    HeaderRead env env' termIndex termIndex' ∧ body.length < cells.length ∧
      env'.size + body.length ≤ env.size + cells.length ∧
      env'.atomNameToIndex.keys.card + body.length ≤
        env.atomNameToIndex.keys.card + cells.length := by
  induction fuel generalizing env termIndex cells with
  | zero => cases done
  | succ fuel ih =>
    cases cells with
    | nil => cases done
    | cons c cells =>
      rw [readRemap] at done
      simp only [List.length_cons] at fits ⊢
      split_ifs at done with last entry
      · cases done
        exact ⟨HeaderRead.refl _ _, by omega, by omega, by omega⟩
      · obtain ⟨⟨name, rest⟩, read, done⟩ := bind_ok done
        change readRemap fuel (readIndex env termIndex c name).1
          (readIndex env termIndex c name).2 rest = _ at done
        have shorter := readEncodedString_length read
        have bounds := readIndex_bounds env termIndex c name
        obtain ⟨later, consumed, size, card⟩ := ih (by omega) done
        have here := readIndex_read env termIndex c name entry (by omega)
        exact ⟨here.trans later, by omega, by omega, by omega⟩

theorem readAllHeader_ok {env env' : TermEnv} {termIndex : TermIndex} {cells body : List Cell}
    (fits : env.size + cells.length ≤ 2 ^ 61)
    (done : readAllHeader env cells = .ok (env', termIndex, body)) :
    HeaderRead env env' ∅ termIndex ∧ body.length < cells.length ∧
      env'.size + body.length ≤ env.size + cells.length ∧
      env'.atomNameToIndex.keys.card + body.length ≤
        env.atomNameToIndex.keys.card + cells.length := by
  cases cells with
  | nil => cases done
  | cons ver cells =>
    unfold readAllHeader at done
    simp only at done
    split_ifs at done
    cases cells with
    | nil => cases done
    | cons remap cells =>
      simp only [List.length_cons] at fits done ⊢
      split_ifs at done
      obtain ⟨header, consumed, size, card⟩ := readRemap_ok (by omega) done
      exact ⟨header, by omega, by omega, by omega⟩

theorem readEncodedString_error {cells : List Cell} {e : ReadError}
    (failed : readEncodedString cells = .error e) : e.isSerializerException := by
  induction cells with
  | nil =>
    cases failed
    rfl
  | cons c cells ih =>
    rw [readEncodedString] at failed
    split_ifs at failed
    · cases failed
      rfl
    · cases failed
      rfl
    · rcases bind_error failed with early | ⟨_, _, impossible⟩
      · exact ih early
      · cases impossible

theorem readRemap_error {fuel : ℕ} {env : TermEnv} {termIndex : TermIndex} {cells : List Cell}
    {e : ReadError} (failed : readRemap fuel env termIndex cells = .error e) :
    e.isSerializerException := by
  induction fuel generalizing env termIndex cells with
  | zero =>
    cases failed
    rfl
  | succ fuel ih =>
    cases cells with
    | nil =>
      cases failed
      rfl
    | cons c cells =>
      rw [readRemap] at failed
      split_ifs at failed
      · rcases bind_error failed with early | ⟨_, _, later⟩
        · exact readEncodedString_error early
        · exact ih later
      · cases failed
        rfl

theorem readAllHeader_error {env : TermEnv} {cells : List Cell} {e : ReadError}
    (failed : readAllHeader env cells = .error e) : e.isSerializerException := by
  cases cells with
  | nil =>
    cases failed
    rfl
  | cons ver cells =>
    unfold readAllHeader at failed
    simp only at failed
    split_ifs at failed
    · cases failed
      rfl
    · cases failed
      rfl
    · cases cells with
      | nil =>
        cases failed
        rfl
      | cons remap cells =>
        simp only at failed
        split_ifs at failed
        · cases failed
          rfl
        · exact readRemap_error failed

end Header

section Patch

variable {termIndex : TermIndex} {oldHdr heapStart : ℕ}

theorem foldl_patchPointer (oldNewIndex : FMap ℕ ℕ) {ptrTerms : List ℕ} (nodup : ptrTerms.Nodup)
    (env : TermEnv) :
    ptrTerms.foldl (patchPointer oldHdr oldNewIndex) env =
      { env with
        mem := fun a =>
          if a ∈ ptrTerms then
            (env.mem a).setValue
              ((oldNewIndex.lookup (env.mem a).index).getD ((env.mem a).index + oldHdr))
          else env.mem a } := by
  induction ptrTerms generalizing env with
  | nil => simp
  | cons p ptrTerms ih =>
    obtain ⟨fresh, nodup⟩ := List.nodup_cons.mp nodup
    rw [List.foldl_cons, ih nodup]
    simp only [patchPointer, TermEnv.set]
    congr 1
    funext a
    by_cases here : a = p
    · subst here
      rw [if_neg fresh, if_pos List.mem_cons_self, Function.update_self]
    · rw [Function.update_of_ne here]
      simp only [List.mem_cons, here, false_or]

/-- What the heap holds at a place in the end. -/
def linkedCell (termIndex : TermIndex) (oldHdr : ℕ) (places : List Place) (p : Place) : Cell :=
  if p.data then p.source else finalCell termIndex oldHdr places p.source

/-- The heap after `read` has patched its pointers. -/
structure Linked (termIndex : TermIndex) (oldHdr : ℕ) (cells : List Cell) (env env' : TermEnv) :
    Prop where
  size : env'.size = layoutEnd termIndex oldHdr env.size 0 cells
  linked : ∀ p ∈ layout termIndex oldHdr env.size 0 cells, p.isWritten → env'.mem p.addr =
    linkedCell termIndex oldHdr (layout termIndex oldHdr env.size 0 cells) p
  kept : ∀ a, (∀ p ∈ layout termIndex oldHdr env.size 0 cells, p.isWritten → p.addr ≠ a) →
    env'.mem a = env.mem a
  tables : env' = { env with mem := env'.mem, size := env'.size }
  readable : ∀ i p, (layout termIndex oldHdr env.size 0 cells)[i]? = some p → p.data = false →
    isReadable termIndex oldHdr p.source (cells.length - i)

def taggedAddrs (places : List Place) : List ℕ := (places.filter (!·.data)).map (·.addr)

def initialState (env : TermEnv) : ReadState :=
  { env, ptrTerms := [], oldNewIndex := ∅, numDat := 0, resultIndex := none, used := [] }

theorem newCell_of_needsPatch {c : Cell} (patch : needsPatch oldHdr c) :
    newCell termIndex oldHdr c = Cell.make (plainTag c) (c.index - oldHdr) := by
  simp only [needsPatch, decide_eq_true_eq] at patch
  obtain ⟨pointer, above⟩ := patch
  have : ¬ c.index < oldHdr := by omega
  unfold newCell
  rcases pointer with tag | tag | tag | tag <;> rw [tag] <;> simp only [if_neg this]

theorem isWritten_of_needsPatch {p : Place} (patch : needsPatch oldHdr p.source) :
    p.isWritten := by
  simp only [needsPatch, decide_eq_true_eq] at patch
  unfold Place.isWritten
  rcases patch.1 with tag | tag | tag | tag <;> simp [tag]

theorem linked_of_readBody {env : TermEnv} {s : ReadState} {cells : List Cell}
    (done : readBody termIndex oldHdr heapStart (initialState env) 0 cells = .ok s) :
    Linked termIndex oldHdr cells env
        (s.ptrTerms.foldl (patchPointer oldHdr s.oldNewIndex) s.env) ∧
      s.used = taggedAddrs (layout termIndex oldHdr env.size 0 cells) ∧
      s.resultIndex = ((layout termIndex oldHdr env.size 0 cells).find? (!·.data)).map (·.addr) := by
  obtain ⟨body, ends⟩ := readBody_ok done
  change Appended termIndex oldHdr (layout termIndex oldHdr env.size 0 cells) _ s 0 at body
  have pointers : s.ptrTerms = ((layout termIndex oldHdr env.size 0 cells).filter
      fun p => !p.data && needsPatch oldHdr p.source).map (·.addr) := by
    simpa [initialState] using body.ptrTerms
  have nodup : s.ptrTerms.Nodup := by
    rw [pointers, List.Nodup, List.pairwise_map, List.pairwise_filter]
    apply (addr_increasing termIndex oldHdr env.size 0 cells).imp
    intro p q less pPatch qPatch
    simp only [Bool.and_eq_true] at pPatch qPatch
    exact (less (isWritten_of_needsPatch pPatch.2) (isWritten_of_needsPatch qPatch.2)).ne
  have patched : ∀ p ∈ layout termIndex oldHdr env.size 0 cells, p.isWritten →
      (p.addr ∈ s.ptrTerms ↔ p.data = false ∧ needsPatch oldHdr p.source) := by
    intro p member written
    rw [pointers, List.mem_map]
    constructor
    · rintro ⟨q, inside, same⟩
      rw [List.mem_filter, Bool.and_eq_true] at inside
      have equal := addr_injective termIndex oldHdr inside.1 member
        (isWritten_of_needsPatch inside.2.2) written same
      subst equal
      simpa using inside.2
    · rintro ⟨tagged, patch⟩
      exact ⟨p, by simp [member, tagged, patch], rfl⟩
  rw [foldl_patchPointer s.oldNewIndex nodup]
  refine ⟨⟨ends, ?_, ?_, ?_, ?_⟩, by simpa [taggedAddrs, initialState] using body.used,
    by simpa [initialState] using body.result⟩
  · intro p member written
    have before : s.env.mem p.addr = p.written termIndex oldHdr := body.placed p member written
    simp only [patched p member written, linkedCell, finalCell]
    cases data : p.data with
    | true => simpa [Place.written, data] using before
    | false =>
      simp only [Place.written, data, Bool.false_eq_true, if_false] at before
      rw [before]
      simp only [true_and, Bool.false_eq_true, if_false]
      by_cases patch : needsPatch oldHdr p.source = true
      · have range : (Cell.make (plainTag p.source) (p.source.index - oldHdr)).index =
            p.source.index - oldHdr :=
          Cell.value_make_of_lt _ (lt_of_le_of_lt (Nat.sub_le _ _) p.source.value_lt)
        have above : oldHdr ≤ p.source.index := by
          simp only [needsPatch, decide_eq_true_eq] at patch
          exact patch.2
        rw [if_pos patch, if_pos patch, newCell_of_needsPatch patch, range, body.index,
          if_pos (Nat.zero_le _), Nat.sub_zero, Cell.setValue, Cell.tag_make]
        simp only [initialState, Finmap.lookup_empty, Option.or_none, Nat.sub_add_cancel above]
      · rw [if_neg patch, if_neg patch]
  · intro a away
    have untouched : a ∉ s.ptrTerms := by
      rw [pointers, List.mem_map]
      rintro ⟨p, inside, same⟩
      rw [List.mem_filter, Bool.and_eq_true] at inside
      exact away p inside.1 (isWritten_of_needsPatch inside.2.2) same
    simp only [if_neg untouched]
    exact body.kept a away
  · rw [body.tables]
    rfl
  · intro i p found tagged
    have := body.readable i p found tagged
    rwa [length_layout] at this

theorem readTermAfterHeader_ok {env env' : TermEnv} {partialEnd : Bool} {cells : List Cell}
    {t : Cell} {used : List ℕ}
    (done : readTermAfterHeader env termIndex oldHdr heapStart partialEnd cells =
      .ok (t, env', used)) :
    (cells = [Cell.EMPTY_LIST] ∧ t = Cell.EMPTY_LIST ∧ env' = env ∧ used = []) ∨
      (Linked termIndex oldHdr cells env env' ∧
        used = taggedAddrs (layout termIndex oldHdr env.size 0 cells) ∧
        t = env'.mem (((layout termIndex oldHdr env.size 0 cells).find? (!·.data)).map
          (·.addr) |>.getD 0)) := by
  unfold readTermAfterHeader at done
  by_cases single : cells = [Cell.EMPTY_LIST] ∧ !partialEnd
  · rw [if_pos single] at done
    cases done
    exact .inl ⟨single.1, rfl, rfl, rfl⟩
  · right
    rw [if_neg single] at done
    obtain ⟨s, read, done⟩ := bind_ok done
    obtain ⟨linked, used', result⟩ := linked_of_readBody read
    cases partialEnd with
    | true => cases done
    | false =>
      simp only [Bool.false_eq_true, if_false] at done
      split_ifs at done
      · cases done
      · cases done
        exact ⟨linked, used', by rw [result]⟩

end Patch

end Epilog.Common.Linking
