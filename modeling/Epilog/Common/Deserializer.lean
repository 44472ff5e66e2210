/- Module: Epilog/Common/Deserializer
   source: src/src/common/term_serializer.cpp (read, read_all_header, integrity_check),
     src/src/common/term_serializer.hpp
   digest: The reader of serialized terms and its integrity check. -/

import Epilog.Common.Heap

set_option autoImplicit false

namespace Epilog.Common.Deserializer

open Epilog.Common.Bits Epilog.Common.Term Epilog.Common.Heap Epilog.Lib.FiniteMap

/-- The kinds of `serializer_exception`, and the two exceptions that are none. -/
inductive ReadError
  | unexpectedData
  | unexpectedEnd
  | unsupportedVersion
  | missingIndex
  | datTooSmall
  | datTooBig
  | danglingPointer
  | illegalFunctor
  | illegalDat
  | missingArgument
  | erroneousArgument
  | cyclicReference
  /-- `std::length_error` of a vector -/
  | lengthError
  /-- `heap_index_out_of_range_exception` -/
  | indexOutOfRange
  deriving DecidableEq, Repr

def ReadError.isSerializerException : ReadError → Bool
  | .lengthError => false
  | .indexOutOfRange => false
  | _ => true

section Cells

/-- The whole cells of a buffer, as `read_cell` gets them. -/
def cellsOf (n : ℕ) (bytes : Bytes) : List Cell :=
  (List.range n).map fun i => ⟨readUint64 (bytes.drop (8 * i))⟩

end Cells

section Names

/-- Byte `i` of the seven in an integer cell -/
def charAt (c : Cell) (i : ℕ) : ℕ := c.value / 2 ^ ((6 - i) * 8 + 5) % 256

/-- The loop of `is_char_chunk` -/
def validChars : List ℕ → Bool
  | [] => true
  | ch :: chars => ch = 0 ∨ (1 ≤ ch ∧ ch ≤ 127 ∧ validChars chars)

def isCharChunk (c : Cell) : Bool :=
  (c.value % 32 = 0 ∨ c.value % 32 = 1) ∧ validChars ((List.range 7).map (charAt c))

def asCharChunk (c : Cell) : Bytes :=
  (((List.range 7).map (charAt c)).takeWhile (· ≠ 0)).map UInt8.ofNat

def isLastCharChunk (c : Cell) : Bool := c.value % 32 = 0

/-- `read_encoded_string`: the name and the cells behind it -/
def readEncodedString : List Cell → Except ReadError (Bytes × List Cell)
  | [] => .error .unexpectedEnd
  | c :: cells =>
    if c.tag ≠ .INT then .error .unexpectedData
    else if !isCharChunk c then .error .unexpectedData
    else if isLastCharChunk c then .ok (asCharChunk c, cells)
    else do
      let (name, rest) ← readEncodedString cells
      return (asCharChunk c ++ name, rest)

end Names

section Header

abbrev TermIndex := FMap Cell ℕ

/-- `to_index`: an entry that exists is kept. -/
def indexTerm (termIndex : TermIndex) (t : Cell) (newId : ℕ) : TermIndex :=
  if t ∈ termIndex then termIndex else termIndex.insert t newId

/-- `read_index` for the entry `c` with the given name -/
def readIndex (env : TermEnv) (termIndex : TermIndex) (c : Cell) (name : Bytes) :
    TermEnv × TermIndex :=
  if c.tag = .CON then
    let (index, env) := env.resolveAtomIndex name
    (env, indexTerm termIndex c.toAtom index)
  else
    let (ref, env) := env.newRef
    (env.setName ref name, indexTerm termIndex c ref.index)

/-- The entries of the remap section, up to `pamer`; every turn takes a cell of the buffer. -/
def readRemap : (fuel : ℕ) → (env : TermEnv) → (termIndex : TermIndex) → (cells : List Cell) →
    Except ReadError (TermEnv × TermIndex × List Cell)
  | 0, _, _, _ => .error .unexpectedEnd
  | _, _, _, [] => .error .unexpectedEnd
  | fuel + 1, env, termIndex, c :: cells =>
    if c = Cell.conOfName (Cell.ascii "pamer") 0 then .ok (env, termIndex, cells)
    else if c.tag = .REF ∨ c.tag = .CON then do
      let (name, rest) ← readEncodedString cells
      let (env, termIndex) := readIndex env termIndex c name
      readRemap fuel env termIndex rest
    else .error .unexpectedData

def readAllHeader (env : TermEnv) : List Cell →
    Except ReadError (TermEnv × TermIndex × List Cell)
  | [] => .error .unexpectedEnd
  | ver :: cells =>
    if ver.tag ≠ .CON then .error .unexpectedData
    else if ver ≠ Cell.conOfName (Cell.ascii "ver1") 0 then .error .unsupportedVersion
    else match cells with
      | [] => .error .unexpectedEnd
      | remap :: cells =>
        if remap ≠ Cell.conOfName (Cell.ascii "remap") 0 then .error .unexpectedData
        else readRemap cells.length env ∅ cells

end Header

section Body

/-- The variables of the loop of `read`. -/
structure ReadState where
  env : TermEnv
  ptrTerms : List ℕ
  oldNewIndex : FMap ℕ ℕ
  numDat : ℕ
  resultIndex : Option ℕ
  used : List ℕ

variable (termIndex : TermIndex) (oldHdr heapStart : ℕ)

/-- The switch of the loop: the new index of a cell that is not data of a bignum. `left` cells
of the buffer are left, the cell included. -/
def readTerm (s : ReadState) (c : Cell) (left : ℕ) : Except ReadError (ℕ × ReadState) :=
  match c.tag with
  | .INT =>
    let (newIndex, env) := s.env.newCell0 c
    .ok (newIndex, { s with env })
  | .CON =>
    if c.isDirect then
      let (newIndex, env) := s.env.newCell0 c
      .ok (newIndex, { s with env })
    else
      match termIndex.lookup c.toAtom with
      | none => .error .missingIndex
      | some index =>
        let (newIndex, env) := s.env.newCell0 (Cell.conOfIndex index c.arity)
        .ok (newIndex, { s with env })
  | .DAT =>
    if c.numBits < 1 then .error .datTooSmall
    else if left < c.numCells then .error .datTooBig
    else
      let (newIndex, env) := s.env.newCell0 c
      .ok (newIndex, { s with env, numDat := c.numCells - 1 })
  -- a cell with this tag falls through the switch
  | .FWD => .ok (0, s)
  | _ =>
    let c := if c.tag = .RFW then c.unwatch else c
    if c.index < oldHdr then
      match termIndex.lookup c with
      | none => .error .missingIndex
      | some newAddr =>
        let (newIndex, env) := s.env.newCell0 (Cell.make c.tag newAddr)
        .ok (newIndex, { s with env })
    else
      let (newIndex, env) := s.env.newCell0 (Cell.make c.tag (c.index - oldHdr))
      .ok (newIndex, { s with env, ptrTerms := s.ptrTerms ++ [newIndex] })

/-- `set_used` resizes the vector to the distance from the start of the new part of the heap,
which wraps around for a smaller index. -/
def setUsed (used : List ℕ) (heapIndex : ℕ) : Except ReadError (List ℕ) :=
  if heapIndex < heapStart then .error .lengthError else .ok (used ++ [heapIndex])

/-- The loop of `read` from the cell with the given old index on. -/
def readBody (s : ReadState) (oldIndex : ℕ) : List Cell → Except ReadError ReadState
  | [] => .ok s
  | c :: cells =>
    if 0 < s.numDat then
      readBody { s with env := s.env.newDatCell c, numDat := s.numDat - 1 } (oldIndex + 1) cells
    else do
      let (newIndex, s) ← readTerm termIndex oldHdr s c (cells.length + 1)
      let used ← setUsed heapStart s.used newIndex
      readBody
        { s with
          resultIndex := s.resultIndex.or (some newIndex)
          oldNewIndex := s.oldNewIndex.insert oldIndex newIndex
          used }
        (oldIndex + 1) cells

/-- One turn of the loop that patches the pointers; an index without a new one is kept. -/
def patchPointer (oldNewIndex : FMap ℕ ℕ) (env : TermEnv) (tindex : ℕ) : TermEnv :=
  let c := env.mem tindex
  let newIndex := (oldNewIndex.lookup c.index).getD (c.index + oldHdr)
  env.set tindex (c.setValue newIndex)

end Body

section IntegrityCheck

variable (mem : ℕ → Cell) (heapStart heapEnd : ℕ)

def checkPointer (ptr : Cell) : Except ReadError Unit :=
  if ptr.index < heapStart ∨ heapEnd ≤ ptr.index then .error .danglingPointer else .ok ()

def checkBignum (big : Cell) : Except ReadError Unit :=
  if (mem big.index).tag ≠ .DAT then .error .illegalDat else .ok ()

def checkFunctor (str : Cell) : Except ReadError Unit :=
  if (mem str.index).tag ≠ .CON then .error .illegalFunctor else .ok ()

/-- Arguments cannot be CON/n where n>0! -/
def argumentAllowed (c : Cell) : Bool :=
  match c.tag with
  | .REF | .RFW | .INT | .STR | .BIG => true
  | .CON => c.arity = 0
  | _ => false

def checkFunctorArgs (str : Cell) : Except ReadError Unit :=
  let arity := (mem str.index).arity
  if heapEnd ≤ str.index + arity then .error .missingArgument
  else if (List.range arity).all fun i => argumentAllowed (mem (str.index + 1 + i)) then .ok ()
  else .error .erroneousArgument

/-- `check_ref_chain` at the cell `index` of the chain; `visit` are the cells before it. Every turn
adds a cell of the new part of the heap, whose number bounds the turns. -/
def checkRefChain (checked : List ℕ) : (fuel : ℕ) → (visit : List ℕ) → (index : ℕ) →
    Except ReadError (List ℕ)
  | 0, _, _ => .error .cyclicReference
  | fuel + 1, visit, index =>
    let c := mem index
    if c.tag.isRef then do
      checkPointer heapStart heapEnd c
      let visit := index :: visit
      if index ∈ checked ∨ c.index = index then .ok (visit ++ checked)
      else if c.index ∈ visit then .error .cyclicReference
      else checkRefChain checked fuel visit c.index
    else .ok checked

/-- The loop of `integrity_check` from cell `i` on. Every turn moves on by a cell at least. -/
def checkCells (used : List ℕ) : (fuel : ℕ) → (i : ℕ) → (checked : List ℕ) →
    Except ReadError Unit
  | 0, _, _ => .ok ()
  | fuel + 1, i, checked =>
    if heapEnd ≤ i then .ok ()
    else if i ∈ checked ∨ i ∉ used then checkCells used fuel (i + 1) checked
    else
      let c := mem i
      match c.tag with
      -- skip the untagged cells after the header
      | .DAT => checkCells used fuel (i + (c.numCells - 1) + 1) checked
      | .BIG => do
        checkPointer heapStart heapEnd c
        checkBignum mem c
        checkCells used fuel (i + 1) checked
      | .STR => do
        checkPointer heapStart heapEnd c
        checkFunctor mem c
        checkFunctorArgs mem heapEnd c
        checkCells used fuel (i + 1) checked
      | .REF | .RFW => do
        let checked ← checkRefChain mem heapStart heapEnd checked (heapEnd - heapStart + 1) [] i
        checkCells used fuel (i + 1) checked
      | _ => checkCells used fuel (i + 1) checked

def integrityCheck (used : List ℕ) : Except ReadError Unit :=
  checkCells mem heapStart heapEnd used (heapEnd - heapStart) heapStart []

end IntegrityCheck

section Read

/-- The part of `read` after the header. -/
def readTermAfterHeader (env : TermEnv) (termIndex : TermIndex) (oldHdr heapStart : ℕ)
    (partialEnd : Bool) (cells : List Cell) : Except ReadError (Cell × TermEnv × List ℕ) :=
  -- executing the empty list does not create anything on the heap
  if cells = [Cell.EMPTY_LIST] ∧ !partialEnd then .ok (Cell.EMPTY_LIST, env, [])
  else do
    let s ← readBody termIndex oldHdr heapStart
      { env, ptrTerms := [], oldNewIndex := ∅, numDat := 0, resultIndex := none, used := [] } 0 cells
    if partialEnd then throw .unexpectedEnd
    let env := s.ptrTerms.foldl (patchPointer oldHdr s.oldNewIndex) s.env
    let resultIndex := s.resultIndex.getD 0
    if env.size ≤ resultIndex then throw .indexOutOfRange
    return (env.mem resultIndex, env, s.used)

/-- `term_serializer::read` with its vector `used`, the addresses of the tagged cells it appends -/
def readUsed (env : TermEnv) (bytes : Bytes) : Except ReadError (Cell × TermEnv × List ℕ) := do
  let cells := cellsOf (bytes.length / 8) bytes
  let heapStart := env.size
  let (env, termIndex, body) ← readAllHeader env cells
  let oldHdr := cells.length - body.length
  let (t, env, used) ← readTermAfterHeader env termIndex oldHdr heapStart
    (bytes.length % 8 ≠ 0) body
  integrityCheck env.mem heapStart env.size used
  return (t, env, used)

def read (env : TermEnv) (bytes : Bytes) : Except ReadError (Cell × TermEnv) := do
  let (t, env, _) ← readUsed env bytes
  return (t, env)

end Read

end Epilog.Common.Deserializer
