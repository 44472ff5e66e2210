/- Module: Epilog/Common/ReadSoundness
   source: src/src/common/term_serializer.cpp (read), src/src/common/term.hpp (new_cell0)
   digest: When the reader returns a sound term, and when it appends a coin. -/

import Epilog.Common.Integrity
import Epilog.Common.Linking

set_option autoImplicit false

namespace Epilog.Common.ReadSoundness

open Epilog.Common.Bits Epilog.Common.Term Epilog.Common.Heap Epilog.Common.Deserializer
  Epilog.Common.Placement Epilog.Common.Linking Epilog.Common.Integrity Epilog.Lib.FiniteMap
  Epilog.Lib.Run

section Statement

/-- The cells of a term: those its references and its arguments lead to. -/
inductive Reaches (mem : ℕ → Cell) (t : Cell) : Cell → Prop
  | root : Reaches mem t t
  | ref {c : Cell} (before : Reaches mem t c) (isRef : c.tag.isRef) :
      Reaches mem t (mem c.index)
  | arg {c : Cell} {k : ℕ} (before : Reaches mem t c) (isStr : c.tag = .STR)
      (inside : k < (mem c.index).arity) : Reaches mem t (mem (c.index + 1 + k))

/-- A term in the new part of the heap, whose tagged cells are `used`. -/
structure SoundTerm (mem : ℕ → Cell) (heapStart heapEnd : ℕ) (used : List ℕ) (t : Cell) : Prop where
  valid : argumentAllowed t
  inside : ∀ c, Reaches mem t c → c.tag.isRef ∨ c.tag = .STR ∨ c.tag = .BIG →
    heapStart ≤ c.index ∧ c.index < heapEnd
  functor : ∀ c, Reaches mem t c → c.tag = .STR → c.index ∈ used ∧ (mem c.index).tag = .CON ∧
    ∀ k < (mem c.index).arity, c.index + 1 + k < heapEnd ∧ c.index + 1 + k ∈ used ∧
      argumentAllowed (mem (c.index + 1 + k))
  bignum : ∀ c, Reaches mem t c → c.tag = .BIG → c.index ∈ used ∧ (mem c.index).tag = .DAT ∧
    c.index + (mem c.index).numCells ≤ heapEnd
  chains : ∀ c, Reaches mem t c → Ends mem c

/-- `read` throws a `serializer_exception` or returns a sound term. -/
def ReadsSoundly (env : TermEnv) (bytes : Bytes) : Prop :=
  match readUsed env bytes with
  | .error e => e.isSerializerException
  | .ok (t, env', used) => SoundTerm env'.mem env.size env'.size used t

/-- The address that a pointer leads to in the end. -/
def finalIndex (termIndex : TermIndex) (oldHdr : ℕ) (places : List Place) (p : Place) : ℕ :=
  (finalCell termIndex oldHdr places p.source).index

/-- The condition on the cells of the body, given what the header left: `hdrEnd` is the size of the
heap after it. -/
structure BodyLinks (termIndex : TermIndex) (oldHdr heapStart hdrEnd : ℕ) (body : List Cell) :
    Prop where
  first : ∃ c cells, body = c :: cells ∧ argumentAllowed c
  noForward : ∀ p ∈ layout termIndex oldHdr hdrEnd 0 body, p.data = false → p.source.tag ≠ .FWD
  pointers : ∀ p ∈ layout termIndex oldHdr hdrEnd 0 body, p.data = false →
    needsPatch oldHdr p.source →
    heapStart ≤ finalIndex termIndex oldHdr (layout termIndex oldHdr hdrEnd 0 body) p →
    finalIndex termIndex oldHdr (layout termIndex oldHdr hdrEnd 0 body) p <
      layoutEnd termIndex oldHdr hdrEnd 0 body →
    finalIndex termIndex oldHdr (layout termIndex oldHdr hdrEnd 0 body) p < hdrEnd ∨
      finalIndex termIndex oldHdr (layout termIndex oldHdr hdrEnd 0 body) p ∈
        taggedAddrs (layout termIndex oldHdr hdrEnd 0 body)
  arguments : ∀ p ∈ layout termIndex oldHdr hdrEnd 0 body, p.data = false → p.source.tag = .STR →
    ∀ f ∈ layout termIndex oldHdr hdrEnd 0 body, f.data = false →
    f.addr = finalIndex termIndex oldHdr (layout termIndex oldHdr hdrEnd 0 body) p →
    ∀ k < (newCell termIndex oldHdr f.source).arity,
    f.addr + 1 + k < layoutEnd termIndex oldHdr hdrEnd 0 body →
    ∃ q ∈ layout termIndex oldHdr hdrEnd 0 body, q.addr = f.addr + 1 + k

/-- The condition on a buffer: its body is linked. -/
def BufferLinks (env : TermEnv) (bytes : Bytes) : Prop :=
  ∀ env₁ termIndex body,
    readAllHeader env (cellsOf (bytes.length / 8) bytes) = .ok (env₁, termIndex, body) →
    BodyLinks termIndex (bytes.length / 8 - body.length) env.size env₁.size body

end Statement

section Cells

variable {termIndex : TermIndex} {oldHdr : ℕ}

@[simp] theorem tag_newCell (c : Cell) : (newCell termIndex oldHdr c).tag = plainTag c := by
  unfold newCell plainTag
  cases tag : c.tag with
  | INT | DAT | FWD => simpa using tag
  | CON =>
    simp only [reduceCtorEq, if_false]
    split_ifs <;> simp [tag]
  | REF | RFW | BIG | STR =>
    simp only [reduceCtorEq, if_false, if_true]
    split_ifs <;> simp

@[simp] theorem tag_finalCell (places : List Place) (c : Cell) :
    (finalCell termIndex oldHdr places c).tag = plainTag c := by
  unfold finalCell
  split_ifs
  · exact Cell.tag_make _ _
  · exact tag_newCell c

theorem finalCell_of_plain {c : Cell} (places : List Place)
    (plain : ¬ (c.tag = .REF ∨ c.tag = .RFW ∨ c.tag = .BIG ∨ c.tag = .STR)) :
    finalCell termIndex oldHdr places c = newCell termIndex oldHdr c := by
  rw [finalCell, if_neg]
  simp only [needsPatch, decide_eq_true_eq, not_and]
  exact fun pointer => absurd pointer plain

theorem newCell_of_dat {c : Cell} (isDat : c.tag = .DAT) : newCell termIndex oldHdr c = c := by
  rw [newCell, isDat]

theorem plainTag_eq_iff {c : Cell} {t : Tag} (plain : t ≠ .REF) (notRfw : t ≠ .RFW) :
    plainTag c = t ↔ c.tag = t := by
  unfold plainTag
  split_ifs with rfw
  · rw [rfw]
    simp [plain.symm, notRfw.symm]
  · rfl

theorem argumentAllowed_finalCell {c : Cell} (places : List Place) (allowed : argumentAllowed c) :
    argumentAllowed (finalCell termIndex oldHdr places c) := by
  unfold argumentAllowed at allowed ⊢
  rw [tag_finalCell]
  cases tag : c.tag with
  | CON =>
    have zero : c.arity = 0 := by simpa [tag] using allowed
    rw [plainTag_of_ne (by simp [tag]), tag, finalCell_of_plain places (by simp [tag]), newCell,
      tag, zero]
    simp only
    split_ifs
    · simpa using zero
    · simpa using Cell.arity_conOfIndex_zero _
  | REF | RFW | INT | STR | BIG => simp [plainTag, tag]
  | DAT | FWD => simp [tag] at allowed

end Cells

section Closure

/-- What is known of the heap after a read that passed the integrity check. -/
structure Checked (termIndex : TermIndex) (oldHdr heapStart : ℕ) (env₁ env' : TermEnv)
    (body : List Cell) : Prop where
  grows : heapStart ≤ env₁.size
  fits : env₁.size ≤ 2 ^ 61
  vars : ∀ a, heapStart ≤ a → a < env₁.size → env'.mem a = Cell.make .REF a
  keys : ∀ c i, termIndex.lookup c = some i →
    c.tag = .CON ∨ (c.tag = .REF ∧ heapStart ≤ i ∧ i < env₁.size)
  linked : Linked termIndex oldHdr body env₁ env'
  links : BodyLinks termIndex oldHdr heapStart env₁.size body
  cells : ∀ a ∈ taggedAddrs (layout termIndex oldHdr env₁.size 0 body),
    CellOk env'.mem heapStart env'.size a

variable {termIndex : TermIndex} {oldHdr heapStart : ℕ} {env₁ env' : TermEnv} {body : List Cell}

theorem mem_taggedAddrs {places : List Place} {a : ℕ} :
    a ∈ taggedAddrs places ↔ ∃ p ∈ places, p.data = false ∧ p.addr = a := by
  simp only [taggedAddrs, List.mem_map, List.mem_filter, Bool.not_eq_true', and_assoc]

namespace Checked

variable (read : Checked termIndex oldHdr heapStart env₁ env' body)
include read

theorem written {p : Place} (member : p ∈ layout termIndex oldHdr env₁.size 0 body) :
    p.isWritten := by
  cases data : p.data with
  | true => simp [Place.isWritten, data]
  | false => simp [Place.isWritten, read.links.noForward p member data]

theorem mem_place {p : Place} (member : p ∈ layout termIndex oldHdr env₁.size 0 body)
    (tagged : p.data = false) : env'.mem p.addr =
      finalCell termIndex oldHdr (layout termIndex oldHdr env₁.size 0 body) p.source := by
  rw [read.linked.linked p member (read.written member), linkedCell, tagged]
  rfl

theorem addr_range {p : Place} (member : p ∈ layout termIndex oldHdr env₁.size 0 body) :
    env₁.size ≤ p.addr ∧ p.addr < env'.size := by
  rw [read.linked.size]
  exact addr_mem termIndex oldHdr member (read.written member)

theorem readable {p : Place} (member : p ∈ layout termIndex oldHdr env₁.size 0 body)
    (tagged : p.data = false) : ∃ left, isReadable termIndex oldHdr p.source left := by
  obtain ⟨i, hi, rfl⟩ := List.getElem_of_mem member
  exact ⟨_, read.linked.readable i _ (List.getElem?_eq_getElem hi) tagged⟩

theorem target {p : Place} (member : p ∈ layout termIndex oldHdr env₁.size 0 body)
    (tagged : p.data = false)
    (pointer : p.source.tag = .REF ∨ p.source.tag = .RFW ∨ p.source.tag = .BIG ∨
      p.source.tag = .STR)
    (low : heapStart ≤ (env'.mem p.addr).index) (high : (env'.mem p.addr).index < env'.size) :
    (env'.mem p.addr).index < env₁.size ∨
      (env'.mem p.addr).index ∈ taggedAddrs (layout termIndex oldHdr env₁.size 0 body) := by
  by_cases patch : needsPatch oldHdr p.source = true
  · rw [read.mem_place member tagged] at low high ⊢
    rw [read.linked.size] at high
    exact read.links.pointers p member tagged patch low high
  · left
    have inHeader : p.source.index < oldHdr := by
      simp only [needsPatch, decide_eq_true_eq, not_and, not_le] at patch
      exact patch pointer
    obtain ⟨left, fine⟩ := read.readable member tagged
    have indexed : isIndexed termIndex oldHdr p.source := by
      unfold isReadable at fine
      rcases pointer with tag | tag | tag | tag <;> rw [tag] at fine <;> exact fine
    rcases indexed with above | ⟨addr, known⟩
    · omega
    · rw [read.mem_place member tagged, finalCell, if_neg patch]
      have value : newCell termIndex oldHdr p.source = Cell.make (plainTag p.source) addr := by
        unfold newCell
        rcases pointer with tag | tag | tag | tag <;> rw [tag] <;>
          simp only [if_pos inHeader, known, Option.getD_some]
      rcases read.keys _ _ known with con | ⟨-, -, below⟩
      · rw [Cell.tag_make, plainTag_eq_iff (by simp) (by simp)] at con
        rcases pointer with tag | tag | tag | tag <;> simp [tag] at con
      · have fits := read.fits
        rw [value, Cell.index, Cell.value_make_of_lt _ (by omega)]
        exact below

theorem arg_tagged {f : Place} (member : f ∈ layout termIndex oldHdr env₁.size 0 body)
    (tagged : f.data = false) (con : f.source.tag = .CON) {k : ℕ}
    (allowed : ∀ j ≤ k, argumentAllowed (env'.mem (f.addr + 1 + j)))
    {q : Place} (placed : q ∈ layout termIndex oldHdr env₁.size 0 body)
    (here : q.addr = f.addr + 1 + k) :
    f.addr + 1 + k ∈ taggedAddrs (layout termIndex oldHdr env₁.size 0 body) := by
  rw [mem_taggedAddrs]
  cases data : q.data with
  | false => exact ⟨q, placed, data, here⟩
  | true =>
    exfalso
    -- data would belong to a header among the arguments
    rcases header_of_data termIndex oldHdr placed data with early | ⟨d, header, isHeader, dat, low, high⟩
    · have := (read.addr_range placed).1
      omega
    · rcases Nat.lt_trichotomy d.addr f.addr with before | same | after
      · have := no_tagged_in_data termIndex oldHdr header isHeader dat member
          (read.written member) tagged before
        omega
      · have equal := addr_injective termIndex oldHdr header member (read.written header)
          (read.written member) same
        rw [equal, con] at dat
        cases dat
      · obtain ⟨j, hj⟩ : ∃ j, d.addr = f.addr + 1 + j := ⟨d.addr - (f.addr + 1), by omega⟩
        have argument := allowed j (by omega)
        rw [← hj, read.mem_place header isHeader, finalCell_of_plain _ (by simp [dat]),
          newCell_of_dat dat] at argument
        simp [argumentAllowed, dat] at argument

/-- Every cell that a term leads to is a tagged cell or a variable of the header. -/
def Inside (_ : Checked termIndex oldHdr heapStart env₁ env' body) (c : Cell) : Prop :=
  (∃ a, heapStart ≤ a ∧ a < env₁.size ∧ c = Cell.make .REF a) ∨
    ∃ p ∈ layout termIndex oldHdr env₁.size 0 body, p.data = false ∧ c = env'.mem p.addr

omit read in
theorem inside_of_target (read : Checked termIndex oldHdr heapStart env₁ env' body) {i : ℕ}
    (low : heapStart ≤ i) (target : i < env₁.size ∨
      i ∈ taggedAddrs (layout termIndex oldHdr env₁.size 0 body)) : read.Inside (env'.mem i) := by
  rcases target with header | tagged
  · exact .inl ⟨i, low, header, read.vars i low header⟩
  · obtain ⟨p, member, data, rfl⟩ := mem_taggedAddrs.mp tagged
    exact .inr ⟨p, member, data, rfl⟩

theorem cellOk {p : Place} (member : p ∈ layout termIndex oldHdr env₁.size 0 body)
    (tagged : p.data = false) : CellOk env'.mem heapStart env'.size p.addr :=
  read.cells p.addr (mem_taggedAddrs.mpr ⟨p, member, tagged, rfl⟩)

theorem source_tag {p : Place} (member : p ∈ layout termIndex oldHdr env₁.size 0 body)
    (tagged : p.data = false) : plainTag p.source = (env'.mem p.addr).tag := by
  rw [read.mem_place member tagged, tag_finalCell]

theorem functor {p : Place} (member : p ∈ layout termIndex oldHdr env₁.size 0 body)
    (tagged : p.data = false) (str : (env'.mem p.addr).tag = .STR) :
    (env'.mem p.addr).index ∈ taggedAddrs (layout termIndex oldHdr env₁.size 0 body) ∧
      ∀ k < (env'.mem (env'.mem p.addr).index).arity,
        (env'.mem p.addr).index + 1 + k ∈
          taggedAddrs (layout termIndex oldHdr env₁.size 0 body) := by
  have ok := read.cellOk member tagged
  have sourceStr : p.source.tag = .STR := by
    rw [← plainTag_eq_iff (by simp) (by simp), read.source_tag member tagged, str]
  obtain ⟨low, high⟩ := ok.target (.inr str)
  have con := ok.functor str
  obtain ⟨room, allowed⟩ := ok.args str
  rcases read.target member tagged (by simp [sourceStr]) low high with header | inBody
  · rw [read.vars _ low header, Cell.tag_make] at con
    cases con
  · refine ⟨inBody, ?_⟩
    intro k inArity
    obtain ⟨f, placed, data, here⟩ := mem_taggedAddrs.mp inBody
    rw [← here] at con inArity room allowed ⊢
    have sourceCon : f.source.tag = .CON := by
      rw [← plainTag_eq_iff (by simp) (by simp), read.source_tag placed data, con]
    have value : env'.mem f.addr = newCell termIndex oldHdr f.source := by
      rw [read.mem_place placed data, finalCell_of_plain _ (by simp [sourceCon])]
    have atTarget : f.addr =
        (finalCell termIndex oldHdr (layout termIndex oldHdr env₁.size 0 body) p.source).index := by
      rw [here, read.mem_place member tagged]
    obtain ⟨q, placed', here'⟩ := read.links.arguments p member tagged sourceStr f placed data
      atTarget k (by rw [← value]; exact inArity) (by rw [← read.linked.size]; omega)
    exact read.arg_tagged placed data sourceCon (fun j le => allowed j (by omega)) placed' here'

omit read in
theorem inside_of_reaches (read : Checked termIndex oldHdr heapStart env₁ env' body) {t c : Cell}
    (start : read.Inside t) (reached : Reaches env'.mem t c) : read.Inside c := by
  induction reached with
  | root => exact start
  | @ref c _ isRef ih =>
    rcases ih with ⟨a, low, high, rfl⟩ | ⟨p, member, tagged, rfl⟩
    · have fits := read.fits
      rw [Cell.index, Cell.value_make_of_lt .REF (by omega)]
      exact read.inside_of_target low (.inl high)
    · have chain := (read.cellOk member tagged).chain isRef
      apply read.inside_of_target chain.low
      apply read.target member tagged _ chain.low chain.high
      have plain := read.source_tag member tagged
      simp only [Tag.isRef, decide_eq_true_eq] at isRef
      unfold plainTag at plain
      split_ifs at plain with rfw
      · simp [rfw]
      · rcases isRef with ref | ref <;> simp [plain, ref]
  | @arg c k _ isStr inArity ih =>
    rcases ih with ⟨a, _, _, rfl⟩ | ⟨p, member, tagged, rfl⟩
    · simp at isStr
    · have arg := (read.functor member tagged isStr).2 k inArity
      obtain ⟨q, placed, data, here⟩ := mem_taggedAddrs.mp arg
      exact .inr ⟨q, placed, data, by rw [here]⟩

theorem bignum {p : Place} (member : p ∈ layout termIndex oldHdr env₁.size 0 body)
    (tagged : p.data = false) (big : (env'.mem p.addr).tag = .BIG) :
    (env'.mem p.addr).index ∈ taggedAddrs (layout termIndex oldHdr env₁.size 0 body) ∧
      (env'.mem p.addr).index + (env'.mem (env'.mem p.addr).index).numCells ≤ env'.size := by
  have ok := read.cellOk member tagged
  have sourceBig : p.source.tag = .BIG := by
    rw [← plainTag_eq_iff (by simp) (by simp), read.source_tag member tagged, big]
  obtain ⟨low, high⟩ := ok.target (.inl big)
  have dat := ok.bignum big
  rcases read.target member tagged (by simp [sourceBig]) low high with header | inBody
  · rw [read.vars _ low header, Cell.tag_make] at dat
    cases dat
  · refine ⟨inBody, ?_⟩
    obtain ⟨d, placed, data, here⟩ := mem_taggedAddrs.mp inBody
    rw [← here] at dat ⊢
    have sourceDat : d.source.tag = .DAT := by
      rw [← plainTag_eq_iff (by simp) (by simp), read.source_tag placed data, dat]
    have value : env'.mem d.addr = d.source := by
      rw [read.mem_place placed data, finalCell_of_plain _ (by simp [sourceDat]),
        newCell_of_dat sourceDat]
    obtain ⟨i, hi, found⟩ := List.getElem_of_mem placed
    have found' := (List.getElem?_eq_getElem hi).trans (congrArg some found)
    have fine := read.linked.readable i d found' data
    simp only [isReadable, sourceDat] at fine
    rw [value, read.linked.size]
    exact data_fits termIndex oldHdr found' data sourceDat fine.2

theorem sound {t : Cell} (start : read.Inside t) (valid : argumentAllowed t) :
    SoundTerm env'.mem heapStart env'.size
      (taggedAddrs (layout termIndex oldHdr env₁.size 0 body)) t where
  valid := valid
  inside c reached pointer := by
    rcases read.inside_of_reaches start reached with ⟨a, low, high, rfl⟩ | ⟨p, member, tagged, rfl⟩
    · have fits := read.fits
      have ends := le_layoutEnd termIndex oldHdr env₁.size 0 body
      rw [Cell.index, Cell.value_make_of_lt .REF (by omega), read.linked.size]
      exact ⟨low, high.trans_le ends⟩
    · have ok := read.cellOk member tagged
      rcases pointer with ref | str | big
      · exact ⟨(ok.chain ref).low, (ok.chain ref).high⟩
      · exact ok.target (.inr str)
      · exact ok.target (.inl big)
  functor c reached str := by
    rcases read.inside_of_reaches start reached with ⟨a, _, _, rfl⟩ | ⟨p, member, tagged, rfl⟩
    · simp at str
    · have ok := read.cellOk member tagged
      obtain ⟨inBody, args⟩ := read.functor member tagged str
      obtain ⟨room, allowed⟩ := ok.args str
      exact ⟨inBody, ok.functor str, fun k inside => ⟨by omega, args k inside, allowed k inside⟩⟩
  bignum c reached big := by
    rcases read.inside_of_reaches start reached with ⟨a, _, _, rfl⟩ | ⟨p, member, tagged, rfl⟩
    · simp at big
    · obtain ⟨inBody, fits⟩ := read.bignum member tagged big
      exact ⟨inBody, (read.cellOk member tagged).bignum big, fits⟩
  chains c reached := by
    rcases read.inside_of_reaches start reached with ⟨a, low, high, rfl⟩ | ⟨p, member, tagged, rfl⟩
    · have fits := read.fits
      have here : env'.mem (Cell.make .REF a).index = Cell.make .REF a := by
        rw [Cell.index, Cell.value_make_of_lt .REF (by omega)]
        exact read.vars a low high
      exact .unbound (by simp [Tag.isRef]) (by rw [here]; simp [Tag.isRef]) (by rw [here])
    · by_cases ref : (env'.mem p.addr).tag.isRef = true
      · exact ((read.cellOk member tagged).chain ref).ends
      · exact .value (by simpa using ref)

end Checked

theorem first_place (termIndex : TermIndex) (oldHdr : ℕ) {c : Cell} (cells : List Cell) (size : ℕ)
    (kept : c.tag ≠ .FWD) :
    ∃ p ∈ layout termIndex oldHdr size 0 (c :: cells), p.data = false ∧ p.source = c ∧
      ((layout termIndex oldHdr size 0 (c :: cells)).find? (!·.data)).map (·.addr) =
        some p.addr := by
  rw [layout, if_neg kept]
  exact ⟨_, List.mem_cons_self, rfl, rfl, rfl⟩

theorem not_forward {c : Cell} (allowed : argumentAllowed c) : c.tag ≠ .FWD := by
  intro forward
  simp [argumentAllowed, forward] at allowed

theorem readTermAfterHeader_error {partialEnd : Bool} {e : ReadError}
    (grows : heapStart ≤ env₁.size)
    (links : BodyLinks termIndex oldHdr heapStart env₁.size body)
    (failed : readTermAfterHeader env₁ termIndex oldHdr heapStart partialEnd body = .error e) :
    e.isSerializerException := by
  unfold readTermAfterHeader at failed
  by_cases single : body = [Cell.EMPTY_LIST] ∧ !partialEnd
  · rw [if_pos single] at failed
    cases failed
  · rw [if_neg single] at failed
    rcases bind_error failed with loop | ⟨s, done, finished⟩
    · exact readBody_error grows links.noForward loop
    · obtain ⟨linked, -, result⟩ := linked_of_readBody done
      cases partialEnd with
      | true =>
        cases finished
        rfl
      | false =>
        obtain ⟨c, cells, rfl, allowed⟩ := links.first
        obtain ⟨p, member, tagged, -, found⟩ :=
          first_place termIndex oldHdr cells env₁.size (not_forward allowed)
        have inside := (addr_mem termIndex oldHdr member
          (by simp [Place.isWritten, links.noForward p member tagged])).2
        rw [← linked.size] at inside
        simp only [Bool.false_eq_true, if_false] at finished
        rw [result, found, Option.getD_some, if_neg (by omega)] at finished
        cases finished

end Closure

section Soundness

theorem length_cellsOf (n : ℕ) (bytes : Bytes) : (cellsOf n bytes).length = n := by
  simp [cellsOf]

theorem data_skipped {termIndex : TermIndex} {oldHdr : ℕ} {env₁ env' : TermEnv}
    {body : List Cell} (linked : Linked termIndex oldHdr body env₁ env')
    (noForward : ∀ p ∈ layout termIndex oldHdr env₁.size 0 body, p.data = false →
      p.source.tag ≠ .FWD) :
    ∀ a ∈ taggedAddrs (layout termIndex oldHdr env₁.size 0 body), (env'.mem a).tag = .DAT →
      ∀ b ∈ taggedAddrs (layout termIndex oldHdr env₁.size 0 body), a < b →
        a + (env'.mem a).numCells ≤ b := by
  intro a header dat b member after
  obtain ⟨d, placed, isHeader, rfl⟩ := mem_taggedAddrs.mp header
  obtain ⟨p, placed', tagged, rfl⟩ := mem_taggedAddrs.mp member
  have written : ∀ q ∈ layout termIndex oldHdr env₁.size 0 body, q.data = false →
      q.isWritten := by
    intro q inside data
    simp [Place.isWritten, noForward q inside data]
  have value : env'.mem d.addr =
      finalCell termIndex oldHdr (layout termIndex oldHdr env₁.size 0 body) d.source := by
    rw [linked.linked d placed (written d placed isHeader), linkedCell, isHeader]
    rfl
  have sourceDat : d.source.tag = .DAT := by
    rw [value, tag_finalCell, plainTag_eq_iff (by simp) (by simp)] at dat
    exact dat
  rw [value, finalCell_of_plain _ (by simp [sourceDat]), newCell_of_dat sourceDat]
  exact no_tagged_in_data termIndex oldHdr placed isHeader sourceDat placed'
    (written p placed' tagged) tagged after

/-- A buffer without entries in its header -/
def bufferOf (body : List Cell) : Bytes :=
  ([Cell.conOfName (Cell.ascii "ver1") 0, Cell.conOfName (Cell.ascii "remap") 0,
    Cell.conOfName (Cell.ascii "pamer") 0] ++ body).flatMap fun c => writeUint64 c.raw

def emptyEnv : TermEnv := ⟨fun _ => Cell.make .REF 0, 0, ∅, ∅, ∅⟩

/-- The structure `f(7)` -/
def structureBody : List Cell :=
  [Cell.make .STR 4, Cell.conOfName (Cell.ascii "f") 1, Cell.make .INT 7]

/-- A structure whose pointer leads into the data of a bignum, where a constant is spelled out -/
def rawDataBody : List Cell :=
  [Cell.make .STR 5, Cell.make .DAT 320, Cell.make .REF 0, Cell.make .REF 0, Cell.make .REF 0,
    Cell.conOfName (Cell.ascii "f") 1, Cell.make .INT 7]

private theorem structure_header :
    readAllHeader emptyEnv (cellsOf ((bufferOf structureBody).length / 8)
      (bufferOf structureBody)) = .ok (emptyEnv, ∅, structureBody) := rfl

private theorem structure_links : BufferLinks emptyEnv (bufferOf structureBody) := by
  intro env₁ termIndex body header
  rw [structure_header] at header
  cases header
  constructor
  · exact ⟨_, _, rfl, by decide⟩
  all_goals decide

end Soundness

section Coins

/-- `read` throws a `serializer_exception` or appends no coin, and no structure of the term has a
coin of the new part of the heap as its functor. -/
def ReadsNoCoin (env : TermEnv) (bytes : Bytes) : Prop :=
  match readUsed env bytes with
  | .error e => e.isSerializerException
  | .ok (t, env', used) => (∀ a ∈ used, env'.mem a ≠ Cell.COIN) ∧
      ∀ c, Reaches env'.mem t c → c.tag = .STR → env.size ≤ c.index → c.index < env'.size →
        env'.mem c.index ≠ Cell.COIN

/-- No tagged cell of the body is the constant itself. -/
def NoInlineCoin (env : TermEnv) (bytes : Bytes) : Prop :=
  ∀ env₁ termIndex body,
    readAllHeader env (cellsOf (bytes.length / 8) bytes) = .ok (env₁, termIndex, body) →
    ∀ p ∈ layout termIndex (bytes.length / 8 - body.length) env₁.size 0 body, p.data = false →
      p.source ≠ Cell.COIN

variable {termIndex : TermIndex} {oldHdr : ℕ}

theorem newCell_eq_coin_iff {c : Cell} {left : ℕ} (readable : isReadable termIndex oldHdr c left)
    (few : ∀ d i, d.tag = .CON → termIndex.lookup d = some i → i < 2 ^ 47) :
    newCell termIndex oldHdr c = Cell.COIN ↔ c = Cell.COIN := by
  by_cases con : c.tag = .CON
  · cases direct : c.isDirect with
    | true => simp [newCell, con, direct]
    | false =>
      have coinDirect : Cell.COIN.isDirect = true := by decide
      simp only [isReadable, con, direct, Bool.false_eq_true, false_or] at readable
      obtain ⟨index, found⟩ := readable
      have small : c.arity < 2 ^ 13 := by
        rw [Cell.arity, direct]
        simp only [Bool.false_eq_true, if_false]
        omega
      have byIndex := Cell.isDirect_conOfIndex
        (few _ _ (by rw [tag_toAtom, con]) found) small
      constructor
      · intro same
        simp only [newCell, con, direct, Bool.false_eq_true, if_false, found,
          Option.getD_some] at same
        rw [same, coinDirect] at byIndex
        cases byIndex
      · intro same
        rw [same, coinDirect] at direct
        cases direct
  · have coinTag : Cell.COIN.tag = .CON := by decide
    constructor
    · intro same
      have tag := @tag_newCell termIndex oldHdr c
      rw [same, coinTag, eq_comm, plainTag_eq_iff (by simp) (by simp)] at tag
      exact absurd tag con
    · intro same
      rw [same] at con
      exact absurd coinTag con

theorem finalCell_eq_coin_iff {c : Cell} {left : ℕ} (places : List Place)
    (readable : isReadable termIndex oldHdr c left)
    (few : ∀ d i, d.tag = .CON → termIndex.lookup d = some i → i < 2 ^ 47) :
    finalCell termIndex oldHdr places c = Cell.COIN ↔ c = Cell.COIN := by
  rw [← newCell_eq_coin_iff readable few, finalCell]
  split_ifs with patch
  · have coinTag : Cell.COIN.tag = .CON := by decide
    have other : plainTag c ≠ .CON := by
      rw [Ne, plainTag_eq_iff (by simp) (by simp)]
      simp only [needsPatch, decide_eq_true_eq] at patch
      rcases patch.1 with tag | tag | tag | tag <;> simp [tag]
    constructor
    · intro same
      rw [← same, Cell.tag_make] at coinTag
      exact absurd coinTag other
    · intro same
      rw [← same, tag_newCell] at coinTag
      exact absurd coinTag other
  · rfl

theorem exists_place_zero {cells : List Cell} (nonempty : 0 < layoutEnd termIndex oldHdr 0 0 cells) :
    ∃ p ∈ layout termIndex oldHdr 0 0 cells, p.data = false ∧ p.source.tag ≠ .FWD ∧
      p.addr = 0 := by
  induction cells with
  | nil => simp [layoutEnd] at nonempty
  | cons c cells ih =>
    rw [layoutEnd] at nonempty
    rw [layout]
    split_ifs at nonempty ⊢ with forward
    · obtain ⟨p, member, rest⟩ := ih nonempty
      exact ⟨p, List.mem_cons_of_mem _ member, rest⟩
    · exact ⟨_, List.mem_cons_self, rfl, forward, by simp [allocAddr]⟩

theorem heapStart_zero_of_forward {heapStart : ℕ} {s s' : ReadState} {oldIndex : ℕ}
    {cells : List Cell} (done : readBody termIndex oldHdr heapStart s oldIndex cells = .ok s')
    {p : Place} (member : p ∈ layout termIndex oldHdr s.env.size s.numDat cells)
    (tagged : p.data = false) (forward : p.source.tag = .FWD) : heapStart = 0 := by
  induction cells generalizing s oldIndex with
  | nil => cases count : s.numDat <;> simp [layout] at member
  | cons c cells ih =>
    rw [readBody] at done
    cases count : s.numDat with
    | succ numDat =>
      rw [if_pos (by omega)] at done
      rw [count, layout, List.mem_cons] at member
      rcases member with rfl | member
      · simp at tagged
      · apply ih done
        simpa only [count, TermEnv.newDatCell, TermEnv.append, allocAddr_one,
          Nat.add_sub_cancel] using member
    | zero =>
      rw [if_neg (by omega)] at done
      rw [count, layout] at member
      obtain ⟨read, turn, done⟩ := bind_ok done
      obtain ⟨used, inside, done⟩ := bind_ok done
      split_ifs at member with here
      · rw [show readTerm termIndex oldHdr s c (cells.length + 1) = .ok (0, s) by
          simp [readTerm, here]] at turn
        obtain rfl := Except.ok.inj turn
        rw [setUsed] at inside
        split_ifs at inside with early
        omega
      · rcases List.mem_cons.mp member with rfl | member
        · exact absurd forward here
        · rcases readTerm_spec (cells.length + 1) here count with ⟨-, result⟩ | ⟨-, e, result, -⟩
          · rw [result] at turn
            obtain rfl := Except.ok.inj turn
            exact ih done member
          · rw [result] at turn
            cases turn

theorem addr_of_forward {size numDat : ℕ} {cells : List Cell} {p : Place}
    (member : p ∈ layout termIndex oldHdr size numDat cells) (tagged : p.data = false)
    (forward : p.source.tag = .FWD) : p.addr = 0 := by
  induction cells generalizing size numDat with
  | nil => cases numDat <;> simp [layout] at member
  | cons c cells ih =>
    cases numDat with
    | succ numDat =>
      rw [layout, List.mem_cons] at member
      rcases member with rfl | member
      · simp at tagged
      · exact ih member
    | zero =>
      rw [layout] at member
      split_ifs at member with here
      · rcases List.mem_cons.mp member with rfl | member
        · rfl
        · exact ih member
      · rcases List.mem_cons.mp member with rfl | member
        · exact absurd forward here
        · exact ih member

theorem mem_used_eq_coin_iff {heapStart : ℕ} {env₁ env' : TermEnv} {body : List Cell}
    {partialEnd : Bool} {t : Cell} {used : List ℕ}
    (vars : ∀ a, heapStart ≤ a → a < env₁.size → env₁.mem a = Cell.make .REF a)
    (few : ∀ d i, d.tag = .CON → termIndex.lookup d = some i → i < 2 ^ 47)
    (done : readTermAfterHeader env₁ termIndex oldHdr heapStart partialEnd body =
      .ok (t, env', used)) :
    (∃ a ∈ used, env'.mem a = Cell.COIN) ↔
      ∃ p ∈ layout termIndex oldHdr env₁.size 0 body, p.data = false ∧ p.source = Cell.COIN := by
  have coinTag : Cell.COIN.tag = .CON := by decide
  rcases readTermAfterHeader_ok done with ⟨rfl, rfl, rfl, rfl⟩ | ⟨linked, rfl, -⟩
  · have other : Cell.EMPTY_LIST ≠ Cell.COIN := by decide
    have plain : Cell.EMPTY_LIST.tag ≠ .FWD := by decide
    simp [layout, other, plain]
  · have value : ∀ p ∈ layout termIndex oldHdr env₁.size 0 body, p.data = false →
        p.source.tag ≠ .FWD → (env'.mem p.addr = Cell.COIN ↔ p.source = Cell.COIN) := by
      intro p member tagged kept
      obtain ⟨i, hi, found⟩ := List.getElem_of_mem member
      have fine := linked.readable i p ((List.getElem?_eq_getElem hi).trans (congrArg some found))
        tagged
      rw [linked.linked p member (by simp [Place.isWritten, kept]), linkedCell, tagged]
      exact finalCell_eq_coin_iff _ fine few
    constructor
    · rintro ⟨a, member, coin⟩
      obtain ⟨p, placed, tagged, rfl⟩ := mem_taggedAddrs.mp member
      by_cases forward : p.source.tag = .FWD
      · -- the cell got the address 0 of an empty heap, which holds the first cell
        have notSingle : ¬ (body = [Cell.EMPTY_LIST] ∧ (!partialEnd) = true) := by
          rintro ⟨rfl, -⟩
          have plain : Cell.EMPTY_LIST.tag ≠ .FWD := by decide
          rw [layout, if_neg plain, List.mem_cons, layout] at placed
          rcases placed with rfl | impossible
          · exact plain forward
          · simp at impossible
        unfold readTermAfterHeader at done
        rw [if_neg notSingle] at done
        obtain ⟨s, loop, done⟩ := bind_ok done
        have start := heapStart_zero_of_forward loop placed tagged forward
        have nonempty : 0 < env'.size := by
          cases partialEnd with
          | true => cases done
          | false =>
            simp only [Bool.false_eq_true, if_false] at done
            split_ifs at done
            · cases done
            · simp only [pure, Except.pure, Except.ok.injEq, Prod.mk.injEq] at done
              obtain ⟨-, rfl, -⟩ := done
              omega
        rw [addr_of_forward placed tagged forward] at coin
        rcases Nat.eq_zero_or_pos env₁.size with zero | header
        · rw [linked.size, zero] at nonempty
          obtain ⟨q, member', data, kept, atZero⟩ := exists_place_zero nonempty
          have placed' : q ∈ layout termIndex oldHdr env₁.size 0 body := by
            rw [zero]
            exact member'
          rw [← atZero] at coin
          exact ⟨q, placed', data, (value q placed' data kept).mp coin⟩
        · rw [linked.kept 0, vars 0 (by omega) header] at coin
          · rw [← coin, Cell.tag_make] at coinTag
            cases coinTag
          · intro q member' written
            have := (addr_mem termIndex oldHdr member' written).1
            omega
      · exact ⟨p, placed, tagged, (value p placed tagged forward).mp coin⟩
    · rintro ⟨p, placed, tagged, coin⟩
      have kept : p.source.tag ≠ .FWD := by simp [coin, coinTag]
      exact ⟨p.addr, mem_taggedAddrs.mpr ⟨p, placed, tagged, rfl⟩,
        (value p placed tagged kept).mpr coin⟩

/-- The coin constant as the functor of a structure -/
def coinBody : List Cell :=
  [Cell.make .STR 4, Cell.COIN, Cell.make .INT 7, Cell.make .REF 6]

end Coins

end Epilog.Common.ReadSoundness
