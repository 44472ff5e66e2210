/- Module: Epilog/Interp/BytesNumber
   source: src/src/interp/builtins.cpp (bytes_number_2), src/src/common/term.hpp (is_dotted_pair,
     is_empty_list, set_arg, new_dotted_pair, new_big, set_big)
   digest: Lists of bytes turned into bignums, and numbers into lists of bytes. -/

import Epilog.Common.BigNumbers
import Epilog.Interp.Arithmetics
import Epilog.Interp.SortedSet

set_option autoImplicit false

namespace Epilog.Interp.BytesNumber

open Epilog.Common.Term Epilog.Common.Heap Epilog.Common.TermWalk Epilog.Common.HeapTrees
  Epilog.Common.BigBytes Epilog.Common.BigNumbers Epilog.Interp.SortedSet Epilog.Lib.Fuel
  Epilog.Lib.ByteLanes
open Epilog.Common.Term.Cell (EMPTY_LIST)
open Epilog.Node.InConnection (intCell intValue)
open Epilog.Interp.Arithmetics (Representable intValue_intCell intValue_representable)

section Source

/-- The words of the cells -/
def words (env : TermEnv) : Memory := ⟨fun a => (env.mem a).raw, env.size, []⟩

/-- The heap with other words in its cells -/
def withWords (env : TermEnv) (m : Memory) : TermEnv :=
  { env with mem := fun a => ⟨m.word a⟩, size := m.size }

inductive BytesError
  | notInstantiated
  | notList
  | tooLong (n : ℕ)
  | notByte (position : ℕ) (el : Cell)
  | notInteger (t : Cell)

/-- The text of the exception -/
def BytesError.message (render : Cell → String) : BytesError → String
  | .notInstantiated => "bytes_number/2: Not both arguments can be unbounded variables."
  | .notList => "bytes_number/2: First argument must be a list of integers (in 0..255)"
  | .tooLong n => "bytes_number/2: List length exceeds 65536 elements; was " ++ n.repr
  | .notByte position el =>
    "bytes_number/2: Element at position " ++ position.repr ++
      " is not an integer between 0 and 255; was " ++ render el
  | .notInteger t => "bytes_number/2: Second argument must be an integer number; was " ++ render t

/-- Whether a cell is a constant, or a structure with it for its functor -/
def isCon (env : TermEnv) (con c : Cell) : Option Bool :=
  if c.tag = .CON then some (decide (c = con))
  else if c.tag = .STR then (functor env.mem c).map fun f => decide (f = con)
  else some false

def isDottedPair (env : TermEnv) (c : Cell) : Option Bool := isCon env DOTTED_PAIR c

def isEmptyList (env : TermEnv) (c : Cell) : Option Bool := isCon env EMPTY_LIST c

def setArg (fuel : ℕ) (env : TermEnv) (str : Cell) (index : ℕ) (c : Cell) : Option TermEnv := do
  let dc ← deref env.mem fuel str
  return env.set (dc.index + index + 1) c

def byteCell (byt : UInt8) : Cell := intCell byt.toNat

/-- The loop over the list, with the position of its first element -/
def readBytes (env : TermEnv) : (fuel : ℕ) → Cell → ℕ → Option (Except BytesError (List UInt8))
  | 0, _, _ => none
  | fuel + 1, charlst, i => do
    let pair ← isDottedPair env charlst
    if pair = false then return .ok []
    let charelem ← arg env.mem fuel charlst 0
    if charelem.tag ≠ .INT ∨ intValue charelem < 0 ∨ 255 < intValue charelem then
      return .error (.notByte (i + 1) charelem)
    let charlst ← arg env.mem fuel charlst 1
    let bytes ← readBytes env fuel charlst (i + 1)
    return bytes.map (UInt8.ofNat (intValue charelem).toNat :: ·)

/-- The bytes of a list of length `n` in a new bignum; the length is asserted. -/
def newBytes (env : TermEnv) (n : ℕ) (bytes : List UInt8) : Option (Cell × TermEnv) := do
  guard (4 < n)
  let (index, m) := newBigCells (words env) (8 * n)
  let m ← setBig m index bytes
  return (Cell.make .BIG index, withWords env m)

/-- The branch of a list that is given -/
def bytesToNumber (env : TermEnv) (fuel : ℕ) (charlst : Cell) :
    Option (Except BytesError (Cell × TermEnv)) := do
  let proper ← isList env fuel charlst
  if proper = false then return .error .notList
  let n ← listLength env fuel charlst
  if 65536 < n then return .error (.tooLong n)
  let bytes ← readBytes env fuel charlst 0
  match bytes with
  | .error e => return .error e
  | .ok bytes => (newBytes env n bytes).map .ok

/-- A pair with the byte behind the tail of the list `r`, or as its first one -/
def addByte (fuel : ℕ) (env : TermEnv) (r tail : Cell) (byt : UInt8) :
    Option (Cell × Cell × TermEnv) := do
  let (nextLst, env) := newDottedPair env (byteCell byt) EMPTY_LIST
  let empty ← isEmptyList env tail
  if empty then return (nextLst, nextLst, env)
  let env ← setArg fuel env tail 1 nextLst
  return (r, nextLst, env)

/-- `(val >> 56) & 0xff` -/
def topByte (val : BitVec 64) : UInt8 := ⟨(val.sshiftRight 56 &&& 0xff#64).setWidth 8⟩

/-- The loop over the other bytes of a machine integer; `val` stays as it is. -/
def intLoop (fuel : ℕ) (val : BitVec 64) : ℕ → Cell → TermEnv → Option TermEnv
  | 0, _, env => some env
  | i + 1, tail, env => do
    let (nextLst, env) := newDottedPair env (byteCell (topByte val)) EMPTY_LIST
    let env ← setArg fuel env tail 1 nextLst
    intLoop fuel val i nextLst env

/-- The branch of a machine integer -/
def bytesOfInt (env : TermEnv) (fuel : ℕ) (num : Cell) : Option (Cell × TermEnv) := do
  let val := BitVec.ofInt 64 (intValue num)
  let (r, env) := newDottedPair env (byteCell (topByte val)) EMPTY_LIST
  let env ← intLoop fuel (val.sshiftRight 8) 7 r env
  return (r, env)

/-- The loop from `begin` to `end`, as many bytes apart -/
def bigLoop (fuel : ℕ) :
    ℕ → BigIterator → Cell → Cell → TermEnv → Option (Cell × TermEnv)
  | 0, _, r, _, env => some (r, env)
  | count + 1, it, r, tail, env => do
    let (r, tail, env) ← addByte fuel env r tail it.cellByte.get
    let (it, m) ← it.next (words env)
    bigLoop fuel count it r tail (withWords env m)

def bytesOfBig (env : TermEnv) (fuel : ℕ) (num : Cell) : Option (Cell × TermEnv) := do
  let (it, m) ← begin (words env) num.index
  bigLoop fuel (numBytes (words env) num.index) it EMPTY_LIST EMPTY_LIST (withWords env m)

/-- `bytes_number_2` up to the term that it unifies with the other argument -/
def bytesNumber_2 (env : TermEnv) (fuel : ℕ) (arg0 arg1 : Cell) :
    Option (Except BytesError (Cell × TermEnv)) :=
  if arg0.tag.isRef ∧ arg1.tag.isRef then some (.error .notInstantiated)
  else if arg0.tag.isRef = false then bytesToNumber env fuel arg0
  else if arg1.tag ≠ .BIG ∧ arg1.tag ≠ .INT then some (.error (.notInteger arg1))
  else if arg1.tag = .INT then (bytesOfInt env fuel arg1).map .ok
  else (bytesOfBig env fuel arg1).map .ok

end Source
section Specification

/-- What a bignum stands for: its bytes are the digits from the most significant one on. -/
def bigValue (env : TermEnv) (num : Cell) : ℕ :=
  importBits (loadBytes (words env).word (8 * num.index + 4) (numBytes (words env) num.index))

/-- A list of bytes is the big-endian form of an integer: all bytes of a bignum, or the eight bytes
of a machine integer in two's complement. -/
def BigEndian (env : TermEnv) (num : Cell) (bytes : List UInt8) : Prop :=
  if num.tag = .BIG then
    bytes.length = numBytes (words env) num.index ∧ importBits bytes = bigValue env num
  else bytes.length = 8 ∧ (importBits bytes : ℤ) = intValue num % 2 ^ 64

/-- A number is turned into this list of bytes, for any variable. -/
def Yields (env : TermEnv) (num : Cell) (bytes : List UInt8) : Prop :=
  ∀ arg0 : Cell, arg0.tag.isRef = true → ∃ r env',
    Finds (fun n => bytesNumber_2 env n arg0 num) (.ok (r, env')) ∧
      ProperList env' r (bytes.map byteCell)

/-- A heap that goes on from another one and left the cells from `index` on as they were. -/
structure Later (env env' : TermEnv) (index : ℕ) : Prop where
  grows : env.size ≤ env'.size
  keeps : ∀ a, index ≤ a → a < env.size → env'.mem a = env.mem a

/-- A heap with room for a list of so many bytes, and for a bignum of them -/
def Room (env : TermEnv) (n : ℕ) : Prop := env.size + 8 * n + 8 ≤ 2 ^ 61

/-- A list of bytes is turned into the bignum of them, and this into the same list again at any
later time; a list of more than 65536 elements is refused. -/
def Returns (env : TermEnv) (l : Cell) (bytes : List UInt8) : Prop :=
  (65536 < bytes.length ∧ ∀ arg1, Finds (fun n => bytesNumber_2 env n l arg1)
    (.error (.tooLong bytes.length))) ∨
  ∃ num env₁, num.tag = .BIG ∧ BigEndian env₁ num bytes ∧
    (∀ arg1, Finds (fun n => bytesNumber_2 env n l arg1) (.ok (num, env₁))) ∧
    ∀ env₂, Later env₁ env₂ num.index → Room env₂ bytes.length → Yields env₂ num bytes

/-- An integer: a bignum with all its cells on the heap, or a machine integer -/
def IsNumber (env : TermEnv) (num : Cell) : Prop :=
  num.tag = .BIG ∧ num.index + numCells (words env) num.index ≤ env.size ∧
      Room env (numBytes (words env) num.index) ∨
    num.tag = .INT ∧ Room env 7

/-- The bits of a machine integer below the top byte are all copies of its sign. -/
def SignBelow (v : ℤ) : Prop := (0 ≤ v → 2 ^ 56 ∣ v) ∧ (v < 0 → 2 ^ 56 ∣ v + 1)

instance (v : ℤ) : Decidable (SignBelow v) := inferInstanceAs (Decidable (_ ∧ _))

/-- The new bignum ends with a block of the heap and its last byte is the last one there. -/
def EndsBlock (env : TermEnv) (n : ℕ) : Prop :=
  n % 8 = 4 ∧ (env.size + (n + 4) / 8) % BLOCK_SIZE = 0

end Specification

section Bytes

variable {env : TermEnv} {l : Cell} {bytes : List UInt8}

theorem intValue_byteCell (b : UInt8) : intValue (byteCell b) = b.toNat := by
  have small := b.toNat_lt
  exact intValue_intCell ⟨by unfold Interp.Arithmetics.MIN; omega,
    by unfold Interp.Arithmetics.MAX; omega⟩

theorem tag_byteCell (b : UInt8) : (byteCell b).tag = .INT := Cell.tag_make _ _

theorem byteCell_not_ref (b : UInt8) : (byteCell b).tag.isRef = false := by
  rw [tag_byteCell]
  rfl

theorem byteCell_injective : Function.Injective byteCell := by
  intro a b same
  have values := congrArg intValue same
  rw [intValue_byteCell, intValue_byteCell] at values
  exact UInt8.toNat_inj.1 (by exact_mod_cast values)

theorem ofNat_byteCell (b : UInt8) : UInt8.ofNat (intValue (byteCell b)).toNat = b := by
  rw [intValue_byteCell, Int.toNat_natCast, UInt8.ofNat_toNat]

theorem isDottedPair_cons {el : Cell} {els : List Cell} (proper : ProperList env l (el :: els)) :
    isDottedPair env l = some true := by
  have atFunctor := proper.first.1
  have isStr : l.tag = .STR := by
    cases proper with
    | cons isStr => exact isStr
  unfold isDottedPair isCon
  rw [if_neg (by rw [isStr]; decide), if_pos isStr, atFunctor]
  rfl

theorem isDottedPair_nil : isDottedPair env EMPTY_LIST = some false := by
  unfold isDottedPair isCon
  rw [if_pos (by decide)]
  decide

theorem readBytes_lasting (l : Cell) (i : ℕ) : Lasting fun n => readBytes env n l i := by
  refine lasting_of_succ fun n => ?_
  induction n generalizing l i with
  | zero => exact fun _ found => nomatch found
  | succ n ih =>
    intro a found
    unfold readBytes at found ⊢
    obtain ⟨pair, isPair, found⟩ := Option.bind_eq_some_iff.1 found
    refine Option.bind_eq_some_iff.2 ⟨pair, isPair, ?_⟩
    split_ifs at found ⊢
    · exact found
    · obtain ⟨el, head, found⟩ := Option.bind_eq_some_iff.1 found
      refine Option.bind_eq_some_iff.2 ⟨el, arg_lasting env.mem l 0 n _ el n.le_succ head, ?_⟩
      split_ifs at found ⊢
      · exact found
      · obtain ⟨l', next, found⟩ := Option.bind_eq_some_iff.1 found
        obtain ⟨bytes, rest, found⟩ := Option.bind_eq_some_iff.1 found
        exact Option.bind_eq_some_iff.2 ⟨l', arg_lasting env.mem l 1 n _ l' n.le_succ next,
          Option.bind_eq_some_iff.2 ⟨bytes, ih l' (i + 1) bytes rest, found⟩⟩

theorem finds_readBytes (proper : ProperList env l (bytes.map byteCell)) (i : ℕ) :
    Finds (fun n => readBytes env n l i) (.ok bytes) := by
  induction bytes generalizing l i with
  | nil =>
    cases proper
    refine ⟨1, ?_⟩
    dsimp only
    unfold readBytes
    rw [isDottedPair_nil]
    rfl
  | cons b bytes ih =>
    rw [List.map_cons] at proper
    obtain ⟨-, -, head, tail, next, rest⟩ := proper.first
    obtain ⟨n, head⟩ := head
    obtain ⟨m, next⟩ := next
    obtain ⟨k, later⟩ := ih rest (i + 1)
    refine ⟨max n (max m k) + 1, ?_⟩
    have head' := arg_lasting env.mem l 0 n (max n (max m k)) _ (by omega) head
    have next' := arg_lasting env.mem l 1 m (max n (max m k)) _ (by omega) next
    have later' := readBytes_lasting tail (i + 1) k (max n (max m k)) _ (by omega) later
    dsimp only at head' next' later' ⊢
    have small := b.toNat_lt
    have isByte : ¬ ((byteCell b).tag ≠ .INT ∨ intValue (byteCell b) < 0 ∨
        255 < intValue (byteCell b)) := by
      rw [intValue_byteCell, tag_byteCell]
      rintro (wrong | low | high)
      · exact wrong rfl
      · omega
      · omega
    unfold readBytes
    rw [isDottedPair_cons proper]
    refine Option.bind_eq_some_iff.2 ⟨true, rfl, ?_⟩
    rw [if_neg (by decide)]
    refine Option.bind_eq_some_iff.2 ⟨_, head', ?_⟩
    rw [if_neg isByte]
    refine Option.bind_eq_some_iff.2 ⟨_, next', Option.bind_eq_some_iff.2 ⟨_, later', ?_⟩⟩
    rw [ofNat_byteCell]
    rfl

end Bytes

section Pairs

variable {env env' : TermEnv} {tail next : Cell} {b : UInt8} {bytes : List UInt8}

/-- The last pair of a list of bytes, with its byte -/
structure LastPair (env : TermEnv) (tail : Cell) (b : UInt8) : Prop where
  isStr : tail.tag = .STR
  inside : tail.index + 2 < env.size
  functor : env.mem tail.index = DOTTED_PAIR
  head : env.mem (tail.index + 1) = byteCell b
  last : env.mem (tail.index + 2) = EMPTY_LIST

/-- One more pair behind the last one, which no other cell of the heap shows -/
structure Extended (env : TermEnv) (tail : Cell) (b : UInt8) (next : Cell) (env' : TermEnv) :
    Prop where
  pair : LastPair env' next b
  linked : env'.mem (tail.index + 2) = next
  new : env.size ≤ next.index
  small : env'.size ≤ env.size + 8
  others : ∀ y < env.size, y ≠ tail.index + 2 → env'.mem y = env.mem y

/-- Pairs are put behind the last one, for one byte after the other. -/
inductive Appends : TermEnv → Cell → List UInt8 → TermEnv → Prop
  | nil (env : TermEnv) (tail : Cell) : Appends env tail [] env
  | cons {env env₁ env' : TermEnv} {tail next : Cell} {b : UInt8} {bytes : List UInt8}
      (extended : Extended env tail b next env₁) (rest : Appends env₁ next bytes env') :
      Appends env tail (b :: bytes) env'

theorem Appends.properList (appends : Appends env tail bytes env') (pair : LastPair env tail b) :
    ProperList env' tail ((b :: bytes).map byteCell) ∧ env.size ≤ env'.size ∧
      ∀ y < env.size, y ≠ tail.index + 2 → env'.mem y = env.mem y := by
  induction appends generalizing b with
  | nil env tail =>
    refine ⟨?_, le_rfl, fun _ _ _ => rfl⟩
    have inside := pair.inside
    refine .cons pair.isStr (by omega) pair.functor ?_ ?_ ?_ .nil
    · rw [pair.head]
      exact derefs_value (byteCell_not_ref b)
    · exact fun isRef => absurd isRef (by rw [byteCell_not_ref]; decide)
    · rw [pair.last]
      exact derefs_value (by decide)
  | @cons env env₁ env' tail next b' bytes extended rest ih =>
    obtain ⟨list, grows, same⟩ := ih extended.pair
    have inside := pair.inside
    have new := extended.new
    have inside' := extended.pair.inside
    have kept (y : ℕ) (below : y < env.size) (other : y ≠ tail.index + 2) :
        env'.mem y = env.mem y := by
      rw [same y (by omega) (by omega), extended.others y below other]
    have linked : env'.mem (tail.index + 2) = next := by
      rw [same _ (by omega) (by omega), extended.linked]
    refine ⟨?_, by omega, kept⟩
    refine .cons pair.isStr (by omega) ?_ ?_ ?_ ?_ list
    · rw [kept _ (by omega) (by omega), pair.functor]
    · rw [kept _ (by omega) (by omega), pair.head]
      exact derefs_value (byteCell_not_ref b)
    · exact fun isRef => absurd isRef (by rw [byteCell_not_ref]; decide)
    · rw [linked]
      exact derefs_value list.notRef

theorem lastPair_new (env : TermEnv) (b : UInt8) (room : env.size + 8 ≤ 2 ^ 61) :
    LastPair (newDottedPair env (byteCell b) EMPTY_LIST).2
        (newDottedPair env (byteCell b) EMPTY_LIST).1 b ∧
      env.size ≤ (newDottedPair env (byteCell b) EMPTY_LIST).1.index ∧
      (newDottedPair env (byteCell b) EMPTY_LIST).2.size ≤ env.size + 8 ∧
      ∀ y < env.size, (newDottedPair env (byteCell b) EMPTY_LIST).2.mem y = env.mem y := by
  obtain ⟨x, low, high, pair, index, size, functor, first, second, same⟩ :=
    @newDottedPair_ok env (byteCell b) EMPTY_LIST room
  refine ⟨⟨?_, by omega, ?_, ?_, ?_⟩, by omega, by omega, same⟩
  · rw [pair]
    exact Cell.tag_make _ _
  · rw [index, functor]
  · rw [index, first]
  · rw [index, second]

theorem setArg_str (fuel : ℕ) {str : Cell} (isStr : str.tag = .STR) (index : ℕ) (c : Cell) :
    setArg (fuel + 1) env str index c = some (env.set (str.index + index + 1) c) := by
  unfold setArg deref
  rw [if_neg (by rw [isStr]; decide)]
  rfl

theorem extends_tail {env : TermEnv} {tail : Cell} {b₀ : UInt8} (pair : LastPair env tail b₀)
    (room : env.size + 8 ≤ 2 ^ 61) (b : UInt8) :
    ∃ next env₁ env', newDottedPair env (byteCell b) EMPTY_LIST = (next, env₁) ∧
      functor env₁.mem tail = some DOTTED_PAIR ∧
      (∀ fuel, setArg (fuel + 1) env₁ tail 1 next = some env') ∧
      Extended env tail b next env' := by
  have made := lastPair_new env b room
  generalize newDottedPair env (byteCell b) EMPTY_LIST = p at made ⊢
  obtain ⟨next, env₁⟩ := p
  obtain ⟨⟨isStr, inside', functor', head, last⟩, new, small, same⟩ := made
  have inside := pair.inside
  dsimp only at *
  refine ⟨next, env₁, _, rfl, ?_, fun fuel => setArg_str fuel pair.isStr 1 _,
    ⟨⟨isStr, inside', ?_, ?_, ?_⟩, ?_, new, small, ?_⟩⟩
  · unfold functor
    rw [same _ (by omega), pair.functor]
    rfl
  · exact (Function.update_of_ne (by omega) _ _).trans functor'
  · exact (Function.update_of_ne (by omega) _ _).trans head
  · exact (Function.update_of_ne (by omega) _ _).trans last
  · exact Function.update_self _ _ _
  · intro y below other
    exact (Function.update_of_ne (by omega) _ _).trans (same y below)

theorem addByte_eq {b₀ : UInt8} (pair : LastPair env tail b₀) (room : env.size + 8 ≤ 2 ^ 61)
    (r : Cell) (b : UInt8) :
    ∃ next env', (∀ fuel, addByte (fuel + 1) env r tail b = some (r, next, env')) ∧
      Extended env tail b next env' := by
  obtain ⟨next, env₁, env', made, isPair, set, extended⟩ := extends_tail pair room b
  refine ⟨next, env', fun fuel => ?_, extended⟩
  have notEmpty : isEmptyList env₁ tail = some false := by
    unfold isEmptyList isCon
    rw [if_neg (by rw [pair.isStr]; decide), if_pos pair.isStr, isPair]
    decide
  unfold addByte
  rw [made]
  refine Option.bind_eq_some_iff.2 ⟨false, notEmpty, ?_⟩
  rw [if_neg (by decide)]
  exact Option.bind_eq_some_iff.2 ⟨env', set fuel, rfl⟩

theorem addByte_empty (room : env.size + 8 ≤ 2 ^ 61) (r : Cell) (b : UInt8) :
    ∃ next env', (∀ fuel, addByte fuel env r EMPTY_LIST b = some (next, next, env')) ∧
      LastPair env' next b ∧ env.size ≤ next.index ∧ env'.size ≤ env.size + 8 ∧
      ∀ y < env.size, env'.mem y = env.mem y := by
  refine ⟨_, _, fun fuel => ?_, lastPair_new env b room⟩
  unfold addByte
  refine Option.bind_eq_some_iff.2 ⟨true, ?_, rfl⟩
  unfold isEmptyList isCon
  rw [if_pos (by decide)]
  decide

end Pairs

section Integers

variable {env env' : TermEnv} {tail num : Cell} {b : UInt8}

/-- The bytes that a machine integer gets: its top byte, and seven times its sign. -/
def intBytes (num : Cell) : List UInt8 :=
  topByte (BitVec.ofInt 64 (intValue num)) ::
    List.replicate 7 (topByte ((BitVec.ofInt 64 (intValue num)).sshiftRight 8))

theorem length_intBytes (num : Cell) : (intBytes num).length = 8 := by
  rw [intBytes, List.length_cons, List.length_replicate]

theorem intLoop_eq {k : ℕ} (pair : LastPair env tail b) (room : env.size + 8 * k ≤ 2 ^ 61)
    (val : BitVec 64) :
    ∃ env', (∀ fuel, intLoop (fuel + 1) val k tail env = some env') ∧
      Appends env tail (List.replicate k (topByte val)) env' := by
  induction k generalizing env tail b with
  | zero => exact ⟨env, fun _ => rfl, .nil env tail⟩
  | succ k ih =>
    obtain ⟨next, env₁, env₂, made, -, set, extended⟩ :=
      extends_tail pair (by omega) (topByte val)
    have small := extended.small
    obtain ⟨env', ran, appends⟩ := ih extended.pair (by omega)
    refine ⟨env', fun fuel => ?_, .cons extended appends⟩
    unfold intLoop
    rw [made]
    exact Option.bind_eq_some_iff.2 ⟨env₂, set fuel, ran fuel⟩

theorem bytesOfInt_eq (num : Cell) (room : Room env 7) :
    ∃ r env', (∀ fuel, bytesOfInt env (fuel + 1) num = some (r, env')) ∧
      ProperList env' r ((intBytes num).map byteCell) := by
  unfold Room at room
  have made := lastPair_new env (topByte (BitVec.ofInt 64 (intValue num))) (by omega)
  cases pair : newDottedPair env (byteCell (topByte (BitVec.ofInt 64 (intValue num))))
      EMPTY_LIST with
  | mk r env₁ =>
    rw [pair] at made
    obtain ⟨last, new, small, -⟩ := made
    dsimp only at last new small
    obtain ⟨env', ran, appends⟩ :=
      intLoop_eq (k := 7) last (by omega) ((BitVec.ofInt 64 (intValue num)).sshiftRight 8)
    refine ⟨r, env', fun fuel => ?_, (appends.properList last).1⟩
    unfold bytesOfInt
    dsimp only
    rw [pair]
    exact Option.bind_eq_some_iff.2 ⟨env', ran fuel, rfl⟩

theorem topByte_toNat (val : BitVec 64) :
    ((topByte val).toNat : ℤ) = val.toInt / 2 ^ 56 % 256 := by
  have shifted : (val.sshiftRight 56).toInt = val.toInt / 2 ^ 56 := by
    rw [BitVec.toInt_sshiftRight, Int.shiftRight_eq_div_pow]
    norm_num
  have low : (topByte val).toNat = (val.sshiftRight 56).toNat % 256 := by
    change (BitVec.setWidth 8 (val.sshiftRight 56 &&& 0xff#64)).toNat = _
    rw [BitVec.toNat_setWidth, BitVec.toNat_and]
    change (_ &&& 2 ^ 8 - 1) % 2 ^ 8 = _ % 2 ^ 8
    rw [Nat.and_two_pow_sub_one_eq_mod, Nat.mod_mod]
  have residue : (((val.sshiftRight 56).toNat : ℕ) : ℤ) = (val.sshiftRight 56).toInt % 2 ^ 64 := by
    have small := (val.sshiftRight 56).isLt
    have reduced : ((val.sshiftRight 56).toNat : ℤ).bmod (2 ^ 64) % (2 ^ 64 : ℕ) =
        ((val.sshiftRight 56).toNat : ℤ) % (2 ^ 64 : ℕ) := Int.bmod_emod
    rw [BitVec.toInt_eq_toNat_bmod]
    omega
  rw [low, ← shifted]
  omega

theorem importBits_replicate (a s : UInt8) :
    importBits (a :: List.replicate 7 s) =
      a.toNat * 2 ^ 56 + s.toNat * (1 + 2 ^ 8 + 2 ^ 16 + 2 ^ 24 + 2 ^ 32 + 2 ^ 40 + 2 ^ 48) := by
  unfold importBits
  simp only [List.replicate, List.reverse_cons, List.reverse_nil, List.nil_append,
    List.cons_append, List.map_cons, List.map_nil, Nat.ofDigits_cons, Nat.ofDigits_nil]
  ring

theorem importBits_intBytes (num : Cell) :
    (importBits (intBytes num) : ℤ) = intValue num % 2 ^ 64 ↔ SignBelow (intValue num) := by
  unfold SignBelow
  have inside := intValue_representable num
  unfold Representable Interp.Arithmetics.MIN Interp.Arithmetics.MAX at inside
  have value : (BitVec.ofInt 64 (intValue num)).toInt = intValue num := by
    rw [BitVec.toInt_ofInt]
    exact Int.bmod_eq_of_le (by omega) (by omega)
  have top := topByte_toNat (BitVec.ofInt 64 (intValue num))
  have sign := topByte_toNat ((BitVec.ofInt 64 (intValue num)).sshiftRight 8)
  rw [BitVec.toInt_sshiftRight, Int.shiftRight_eq_div_pow] at sign
  rw [value] at top sign
  rw [intBytes, importBits_replicate]
  push_cast at *
  generalize intValue num = v at *
  obtain positive | negative := le_or_gt 0 v
  · have zero : v / 256 / 72057594037927936 = 0 := by omega
    rw [zero] at sign
    rw [top, sign]
    omega
  · have ones : v / 256 / 72057594037927936 = -1 := by omega
    rw [ones] at sign
    rw [top, sign]
    omega

end Integers

section Bignums

variable {env env' : TermEnv} {index n : ℕ} {it : BigIterator} {b₀ : UInt8} {r tail : Cell}

theorem withWords_words {m : Memory} (word : m.word = (words env).word)
    (size : m.size = env.size) : withWords env m = env := by
  unfold withWords
  rw [word, size]
  rfl

theorem next_clean {m m' : Memory} {it' : BigIterator} (at_ : At index n it)
    (clean : it.cellByte.dirty = false) (moved : it.next m = some (it', m'))
    (ran : Moved it m it' m') :
    it'.cellByte.dirty = false ∧ m'.word = m.word ∧ m'.size = m.size := by
  have clean' : it'.cellByte.dirty = false := by
    by_cases crossing : (it.i + 1) % 8 = 0
    · exact ran.clean crossing
    · have lane := at_.lane
      rw [BigIterator.next, if_neg (fun both => crossing both.1), CellByte.next,
        if_neg (show ¬ (it.cellByte.index + 1) % 8 = 0 by omega)] at moved
      cases moved
      exact clean
  have shown := ran.view_eq
  unfold Common.BigBytes.view at shown
  rw [if_neg (by rw [clean']; decide), if_neg (by rw [clean]; decide)] at shown
  exact ⟨clean', shown, ran.size_eq⟩

/-- The iterator stands in a bignum whose cells are below `base`, with `count` bytes to read. -/
structure Reading (index n base count : ℕ) (it : BigIterator) (env : TermEnv) : Prop where
  at_ : At index n it
  clean : it.cellByte.dirty = false
  left : it.i + count = n + 4
  below : index + (n + 3) / 8 < base
  onHeap : base ≤ env.size
  fresh : 0 < count → it.cellByte.cached = (env.mem it.cell).raw

theorem Reading.of_same {base count : ℕ} (reading : Reading index n base count it env)
    (grows : env.size ≤ env'.size) (same : ∀ y < base, env'.mem y = env.mem y) :
    Reading index n base count it env' := by
  obtain ⟨at_, clean, left, below, onHeap, fresh⟩ := reading
  refine ⟨at_, clean, left, below, onHeap.trans grows, fun more => ?_⟩
  have held := (at_.held_in (by omega)).2
  rw [fresh more, same _ (by omega)]

theorem Reading.next {base count : ℕ} (reading : Reading index n base (count + 1) it env)
    (room : base < env.size) :
    it.cellByte.get = load (words env).word (8 * index + it.i) ∧
      ∃ it' m, it.next (words env) = some (it', m) ∧ withWords env m = env ∧
        it'.i = it.i + 1 ∧ Reading index n base count it' env := by
  obtain ⟨at_, clean, left, below, onHeap, fresh⟩ := reading
  have shown : view it (words env) = (words env).word := if_neg (by rw [clean]; decide)
  have isFresh : Fresh it (words env) := by
    unfold Fresh
    rw [shown]
    exact fresh (by omega)
  have place := at_.place
  have byte := at_.get_eq isFresh
  rw [shown] at byte
  have fits : index + (n + 3) / 8 < (words env).size := lt_of_lt_of_le below onHeap
  obtain ⟨it', m, moved, at', ran⟩ := at_.next_some (at_.block (by omega) fits) fun loads =>
    hasBlock_of_lt (lt_of_le_of_lt (show it.index + 1 ≤ base by
      have crossing := loads.1
      omega) room)
  obtain ⟨clean', word, size⟩ := next_clean at_ clean moved ran
  refine ⟨byte, it', m, moved, withWords_words word size, ran.i_eq, at', clean', ?_, below,
    onHeap, fun more => ?_⟩
  · rw [ran.i_eq]
    omega
  · have held := ran.fresh isFresh (by
      by_cases crossing : (it.i + 1) % 8 = 0
      · refine .inr ⟨crossing, .inr ?_⟩
        have behind := at_.index_le
        rw [at_.bound]
        omega
      · exact .inl crossing)
    unfold Fresh at held
    rw [held, ran.view_eq, shown]
    rfl

theorem Reading.loadBytes_eq {base count i : ℕ} (reading : Reading index n base count it env)
    (same : ∀ y < base, env'.mem y = env.mem y) (inside : i + count ≤ n + 4) :
    loadBytes (words env').word (8 * index + i) count =
      loadBytes (words env).word (8 * index + i) count := by
  have below := reading.below
  refine loadBytes_congr _ fun j less => ?_
  change getByte (env'.mem _).raw _ = getByte (env.mem _).raw _
  rw [same _ (by omega)]

theorem bigLoop_eq {base count : ℕ} (reading : Reading index n base count it env)
    (pair : LastPair env tail b₀) (above : base ≤ tail.index)
    (room : env.size + 8 * count ≤ 2 ^ 61) (r : Cell) :
    ∃ env', (∀ fuel, bigLoop (fuel + 1) count it r tail env = some (r, env')) ∧
      Appends env tail (loadBytes (words env).word (8 * index + it.i) count) env' := by
  induction count generalizing it env tail b₀ with
  | zero => exact ⟨env, fun _ => rfl, .nil env tail⟩
  | succ count ih =>
    obtain ⟨next, env₁, added, extended⟩ := addByte_eq pair (by omega) r it.cellByte.get
    have small := extended.small
    have inside := pair.inside
    have new := extended.new
    have inside' := extended.pair.inside
    have onHeap := reading.onHeap
    have left := reading.left
    have same (y : ℕ) (below : y < base) : env₁.mem y = env.mem y :=
      extended.others y (by omega) (by omega)
    have reading₁ : Reading index n base (count + 1) it env₁ := reading.of_same (by omega) same
    obtain ⟨byte, it', m, moved, back, i_eq, reading'⟩ := reading₁.next (by omega)
    obtain ⟨env', ran, appends⟩ := ih reading' extended.pair (by omega) (by omega)
    refine ⟨env', fun fuel => ?_, ?_⟩
    · unfold bigLoop
      refine Option.bind_eq_some_iff.2 ⟨_, added fuel, Option.bind_eq_some_iff.2 ⟨_, moved, ?_⟩⟩
      dsimp only
      rw [back]
      exact ran fuel
    · have bytes : loadBytes (words env).word (8 * index + it.i) (count + 1) =
          it.cellByte.get :: loadBytes (words env₁).word (8 * index + it'.i) count := by
        rw [← reading.loadBytes_eq same (by omega), loadBytes, ← byte, i_eq, Nat.add_assoc]
      rw [bytes]
      exact .cons extended appends

theorem bytesOfBig_eq {num : Cell}
    (fits : num.index + numCells (words env) num.index ≤ env.size)
    (room : Room env (numBytes (words env) num.index)) :
    ∃ r env', (∀ fuel, bytesOfBig env (fuel + 1) num = some (r, env')) ∧
      ProperList env' r ((loadBytes (words env).word (8 * num.index + 4)
        (numBytes (words env) num.index)).map byteCell) := by
  unfold Room at room
  rw [numCells_eq] at fits
  obtain ⟨it, m, begun, began⟩ :=
    begin_eq (m := words env) (hasBlock_of_lt (show num.index < env.size by omega))
  have clean : it.cellByte.dirty = false ∧ m.word = (words env).word ∧ m.size = env.size := by
    unfold begin at begun
    obtain ⟨⟨header, m₁⟩, got, begun⟩ := Option.bind_eq_some_iff.1 begun
    obtain ⟨⟨cb, m₂⟩, made, begun⟩ := Option.bind_eq_some_iff.1 begun
    cases begun
    obtain ⟨⟨w, m₃⟩, got', made⟩ := Option.bind_eq_some_iff.1 made
    cases made
    obtain ⟨addr, -, got⟩ := Option.bind_eq_some_iff.1 got
    cases got
    obtain ⟨addr', -, got'⟩ := Option.bind_eq_some_iff.1 got'
    cases got'
    exact ⟨rfl, rfl, rfl⟩
  obtain ⟨clean, word, size⟩ := clean
  obtain ⟨n, whole⟩ : ∃ n, n = numBytes (words env) num.index := ⟨_, rfl⟩
  rw [← whole] at began room fits ⊢
  have back : withWords env m = env := withWords_words word size
  have start := began.i_eq
  have reading : Reading num.index n env.size n it env := by
    refine ⟨began.at_, clean, by omega, by omega, le_rfl, fun _ => ?_⟩
    have held := began.fresh
    unfold Fresh at held
    rw [held, began.view_eq]
    rfl
  have unfolded (fuel : ℕ) : bytesOfBig env fuel num =
      bigLoop fuel n it EMPTY_LIST EMPTY_LIST env := by
    unfold bytesOfBig
    rw [begun]
    dsimp only [Option.bind_eq_bind, Option.bind_some]
    rw [back, ← whole]
  cases n with
  | zero => exact ⟨EMPTY_LIST, env, fun fuel => unfolded (fuel + 1), .nil⟩
  | succ count =>
    obtain ⟨next, env₁, added, pair, new, small, same⟩ :=
      @addByte_empty env (by omega) EMPTY_LIST it.cellByte.get
    have inside := pair.inside
    have reading₁ : Reading num.index (count + 1) env.size (count + 1) it env₁ :=
      reading.of_same (by omega) same
    obtain ⟨byte, it', m', moved, back', i_eq, reading'⟩ := reading₁.next (by omega)
    obtain ⟨env', ran, appends⟩ := bigLoop_eq reading' pair new (by omega) next
    refine ⟨next, env', fun fuel => ?_, ?_⟩
    · rw [unfolded]
      unfold bigLoop
      refine Option.bind_eq_some_iff.2 ⟨_, added _, Option.bind_eq_some_iff.2 ⟨_, moved, ?_⟩⟩
      dsimp only
      rw [back']
      exact ran fuel
    · have bytes : loadBytes (words env).word (8 * num.index + 4) (count + 1) =
          it.cellByte.get :: loadBytes (words env₁).word (8 * num.index + it'.i) count := by
        rw [← reading.loadBytes_eq same (by omega), loadBytes, byte, i_eq, start]
      rw [bytes]
      exact (appends.properList pair).1

end Bignums

section Numbers

variable {env : TermEnv} {num : Cell} {bytes : List UInt8}

theorem bytesNumber_2_int {arg0 : Cell} (isRef : arg0.tag.isRef = true) (isInt : num.tag = .INT)
    (fuel : ℕ) : bytesNumber_2 env fuel arg0 num = (bytesOfInt env fuel num).map .ok := by
  unfold bytesNumber_2
  rw [if_neg (by rw [isInt]; exact fun both => absurd both.2 (by decide)),
    if_neg (by rw [isRef]; decide), if_neg (by rw [isInt]; decide), if_pos isInt]

theorem bytesNumber_2_big {arg0 : Cell} (isRef : arg0.tag.isRef = true) (isBig : num.tag = .BIG)
    (fuel : ℕ) : bytesNumber_2 env fuel arg0 num = (bytesOfBig env fuel num).map .ok := by
  unfold bytesNumber_2
  rw [if_neg (by rw [isBig]; exact fun both => absurd both.2 (by decide)),
    if_neg (by rw [isRef]; decide), if_neg (by rw [isBig]; decide),
    if_neg (by rw [isBig]; decide)]

theorem yields_big (isBig : num.tag = .BIG)
    (fits : num.index + numCells (words env) num.index ≤ env.size)
    (room : Room env (numBytes (words env) num.index)) :
    Yields env num (loadBytes (words env).word (8 * num.index + 4)
      (numBytes (words env) num.index)) := by
  intro arg0 isRef
  obtain ⟨r, env', ran, list⟩ := bytesOfBig_eq fits room
  refine ⟨r, env', ⟨1, ?_⟩, list⟩
  dsimp only
  rw [bytesNumber_2_big isRef isBig, ran 0]
  rfl

theorem yields_int_iff (isInt : num.tag = .INT) (room : Room env 7) :
    Yields env num bytes ↔ bytes = intBytes num := by
  obtain ⟨r, env', ran, list⟩ := bytesOfInt_eq num room
  constructor
  · intro yields
    obtain ⟨r', env'', ⟨fuel, found⟩, list'⟩ := yields (Cell.make .REF 0) (by decide)
    dsimp only at found
    rw [bytesNumber_2_int (by decide) isInt] at found
    obtain ⟨out, got, same⟩ := Option.map_eq_some_iff.1 found
    have enough : ∃ k, fuel = k + 1 := by
      rcases Nat.eq_zero_or_pos fuel with rfl | positive
      · exact nomatch got
      · exact ⟨fuel - 1, by omega⟩
    obtain ⟨k, rfl⟩ := enough
    rw [ran k] at got
    obtain rfl := Option.some.inj got
    obtain ⟨rfl, rfl⟩ := Prod.mk.inj (Except.ok.inj same)
    exact List.map_injective_iff.2 byteCell_injective (list'.unique list)
  · rintro rfl arg0 isRef
    refine ⟨r, env', ⟨1, ?_⟩, list⟩
    dsimp only
    rw [bytesNumber_2_int isRef isInt, ran 0]
    rfl

theorem yields_bigEndian_iff (isNumber : IsNumber env num) :
    (∃ bytes, BigEndian env num bytes ∧ Yields env num bytes) ↔
      (num.tag = .INT → SignBelow (intValue num)) := by
  obtain ⟨isBig, fits, room⟩ | ⟨isInt, room⟩ := isNumber
  · refine iff_of_true ⟨_, ?_, yields_big isBig fits room⟩ fun isInt => ?_
    · unfold BigEndian
      rw [if_pos isBig]
      exact ⟨length_loadBytes _ _ _, rfl⟩
    · rw [isBig] at isInt
      cases isInt
  · have notBig : num.tag ≠ .BIG := by
      rw [isInt]
      decide
    unfold BigEndian
    simp only [if_neg notBig, yields_int_iff isInt room, exists_eq_right, importBits_intBytes]
    rw [and_iff_right (length_intBytes num)]
    exact ⟨fun right _ => right, fun right => right isInt⟩

end Numbers

section Lists

variable {env : TermEnv} {l : Cell} {bytes : List UInt8}

theorem isList_lasting (l : Cell) : Lasting fun n => isList env n l :=
  (deref_lasting env.mem l).bind fun l => isListLoop_lasting l

theorem bytesToNumber_lasting (l : Cell) : Lasting fun n => bytesToNumber env n l := by
  intro n m out more found
  dsimp only at found ⊢
  unfold bytesToNumber at found ⊢
  obtain ⟨proper, isList_, found⟩ := Option.bind_eq_some_iff.1 found
  refine Option.bind_eq_some_iff.2 ⟨proper, isList_lasting l n m _ more isList_, ?_⟩
  split_ifs at found ⊢
  · exact found
  · obtain ⟨k, length, found⟩ := Option.bind_eq_some_iff.1 found
    refine Option.bind_eq_some_iff.2
      ⟨k, listLengthLoop_lasting l 0 n m _ more length, ?_⟩
    split_ifs at found ⊢
    · exact found
    · obtain ⟨bytes, read, found⟩ := Option.bind_eq_some_iff.1 found
      exact Option.bind_eq_some_iff.2 ⟨bytes, readBytes_lasting l 0 n m _ more read, found⟩

theorem finds_bytesToNumber (proper : ProperList env l (bytes.map byteCell))
    {out : Except BytesError (Cell × TermEnv)}
    (outcome : (if 65536 < bytes.length then some (.error (.tooLong bytes.length))
      else (newBytes env bytes.length bytes).map .ok) = some out) :
    Finds (fun n => bytesToNumber env n l) out := by
  obtain ⟨n, isList_⟩ := finds_isList proper
  obtain ⟨m, length⟩ := finds_listLength proper 0
  obtain ⟨k, read⟩ := finds_readBytes proper 0
  refine ⟨max n (max m k), ?_⟩
  have isList' := isList_lasting l n (max n (max m k)) _ (by omega) isList_
  have length' := listLengthLoop_lasting l 0 m (max n (max m k)) _ (by omega) length
  have read' := readBytes_lasting l 0 k (max n (max m k)) _ (by omega) read
  rw [List.length_map, Nat.zero_add] at length'
  dsimp only at isList' length' read' ⊢
  unfold bytesToNumber
  refine Option.bind_eq_some_iff.2 ⟨true, isList', ?_⟩
  rw [if_neg (by decide)]
  refine Option.bind_eq_some_iff.2 ⟨bytes.length, length', ?_⟩
  split_ifs at outcome ⊢
  · exact outcome
  · exact Option.bind_eq_some_iff.2 ⟨.ok bytes, read', outcome⟩

theorem bytesNumber_2_list (notRef : l.tag.isRef = false) (fuel : ℕ) (arg1 : Cell) :
    bytesNumber_2 env fuel l arg1 = bytesToNumber env fuel l := by
  unfold bytesNumber_2
  rw [if_neg (by rw [notRef]; exact fun both => absurd both.1 (by decide)), if_pos notRef]

theorem newBytes_some (long : 4 < bytes.length) (short : bytes.length ≤ 65536)
    (ends : ¬ EndsBlock env bytes.length) :
    ∃ env₁, newBytes env bytes.length bytes = some (Cell.make .BIG env.size, env₁) ∧
      env₁.size = env.size + ((bytes.length + 3) / 8 + 1) ∧
      numBytes (words env₁) env.size = bytes.length ∧
      loadBytes (words env₁).word (8 * env.size + 4) bytes.length = bytes := by
  have size₀ := newBigCells_size (words env) bytes.length
  have count := @numBytes_newBigCells (words env) bytes.length (by omega)
  have at_ : (words env).size = env.size := rfl
  rw [at_] at size₀ count
  obtain ⟨m, set, size, word⟩ := @setBig_some env.size
    (newBigCells (words env) (8 * bytes.length)).2 bytes (by omega) count.symm
    (List.ne_nil_of_length_pos (by omega)) ((ends_newBigCells (words env) bytes.length).2 ends)
  refine ⟨withWords env m, ?_, ?_, ?_, ?_⟩
  · unfold newBytes
    exact Option.bind_eq_some_iff.2 ⟨(), if_pos long, Option.bind_eq_some_iff.2 ⟨m, set, rfl⟩⟩
  · exact size.trans size₀
  · have header : numBits (words (withWords env m)) env.size =
        numBits (newBigCells (words env) (8 * bytes.length)).2 env.size := by
      refine numBits_congr ?_
      change (m.word env.size).setWidth (8 * 4) = _
      rw [word]
      exact setWidth_storeBytes _ 4 (by norm_num) (le_refl _) bytes
    rw [numBytes, header, ← numBytes, count]
  · change loadBytes m.word _ _ = bytes
    rw [word, loadBytes_storeBytes]

theorem newBytes_none (short : bytes.length ≤ 65536) (ends : EndsBlock env bytes.length) :
    newBytes env bytes.length bytes = none := by
  have size₀ := newBigCells_size (words env) bytes.length
  have count := @numBytes_newBigCells (words env) bytes.length (by omega)
  have at_ : (words env).size = env.size := rfl
  rw [at_] at size₀ count
  have full := ends.1
  have failed := @setBig_none env.size
    (newBigCells (words env) (8 * bytes.length)).2 bytes (by omega) count.symm
    (List.ne_nil_of_length_pos (by omega))
    fun good => (ends_newBigCells (words env) bytes.length).1 good ends
  unfold newBytes
  cases long : (guard (4 < bytes.length) : Option Unit) with
  | none => rfl
  | some u =>
    change (setBig (newBigCells (words env) (8 * bytes.length)).2 env.size bytes).bind _ = none
    rw [failed]
    rfl

end Lists

section Faithful

variable {env : TermEnv} {l : Cell} {bytes : List UInt8}

theorem returns_iff (proper : ProperList env l (bytes.map byteCell)) (long : 4 < bytes.length)
    (room : Room env bytes.length) :
    Returns env l bytes ↔ (bytes.length ≤ 65536 → ¬ EndsBlock env bytes.length) := by
  have notRef := proper.notRef
  constructor
  · rintro (⟨tooLong, -⟩ | ⟨num, env₁, -, -, found, -⟩) short ends
    · omega
    · obtain ⟨fuel, found⟩ := found noTerm
      dsimp only at found
      rw [bytesNumber_2_list notRef] at found
      obtain ⟨n, length⟩ := finds_listLength proper 0
      obtain ⟨k, read⟩ := finds_readBytes proper 0
      have found' := bytesToNumber_lasting l fuel (max fuel (max n k)) _ (by omega) found
      have length' := listLengthLoop_lasting l 0 n (max fuel (max n k)) _ (by omega) length
      have read' := readBytes_lasting l 0 k (max fuel (max n k)) _ (by omega) read
      rw [List.length_map, Nat.zero_add] at length'
      dsimp only at found' length' read'
      unfold bytesToNumber listLength at found'
      obtain ⟨isProper, -, found'⟩ := Option.bind_eq_some_iff.1 found'
      split_ifs at found'
      · cases found'
      · rw [length', read'] at found'
        dsimp only [Option.bind_eq_bind, Option.bind_some] at found'
        rw [if_neg (by omega), newBytes_none short ends] at found'
        cases found'
  · intro good
    by_cases short : bytes.length ≤ 65536
    · obtain ⟨env₁, made, size, count, loaded⟩ := newBytes_some long short (good short)
      unfold Room at room
      have index : (Cell.make .BIG env.size).index = env.size := Cell.value_make_of_lt _ (by omega)
      have tag : (Cell.make .BIG env.size).tag = .BIG := Cell.tag_make _ _
      refine .inr ⟨Cell.make .BIG env.size, env₁, tag, ?_, fun arg1 => ?_, ?_⟩
      · unfold BigEndian bigValue
        rw [if_pos tag, index, count, loaded]
        exact ⟨rfl, rfl⟩
      · simp only [bytesNumber_2_list notRef]
        refine finds_bytesToNumber proper ?_
        rw [if_neg (by omega), made]
        rfl
      · intro env₂ later room₂
        obtain ⟨grows, keeps⟩ := later
        rw [index] at keeps
        have same (a : ℕ) (from_ : env.size ≤ a)
            (below : a < env.size + ((bytes.length + 3) / 8 + 1)) :
            (words env₂).word a = (words env₁).word a := by
          change (env₂.mem a).raw = (env₁.mem a).raw
          rw [keeps a from_ (by omega)]
        have count₂ : numBytes (words env₂) env.size = bytes.length := by
          have first := same env.size le_rfl (by omega)
          rw [← count]
          unfold numBytes numBits
          rw [first]
        have loaded₂ : loadBytes (words env₂).word (8 * env.size + 4) bytes.length = bytes := by
          conv_rhs => rw [← loaded]
          refine loadBytes_congr _ fun i less => ?_
          unfold load
          rw [same _ (by omega) (by omega)]
        have yields := @yields_big env₂ _ tag
          (by rw [numCells_eq, index, count₂]; omega) (by rw [index, count₂]; exact room₂)
        rwa [index, count₂, loaded₂] at yields
    · refine .inl ⟨by omega, fun arg1 => ?_⟩
      simp only [bytesNumber_2_list notRef]
      refine finds_bytesToNumber proper ?_
      rw [if_pos (by omega)]

/-- The conversion is faithful for the lists whose new bignum does not fill its last cell at the
end of a block, and for the bignums and those machine integers that are their top byte with copies
of the sign below it. -/
theorem conversion_faithful_iff (env : TermEnv) :
    (∀ l bytes, ProperList env l (bytes.map byteCell) → 4 < bytes.length →
      Room env bytes.length →
      (Returns env l bytes ↔ (bytes.length ≤ 65536 → ¬ EndsBlock env bytes.length))) ∧
    ∀ num, IsNumber env num →
      ((∃ bytes, BigEndian env num bytes ∧ Yields env num bytes) ↔
        (num.tag = .INT → SignBelow (intValue num))) :=
  ⟨fun _ _ proper long room => returns_iff proper long room,
    fun _ isNumber => yields_bigEndian_iff isNumber⟩

/-- A heap without cells -/
def emptyEnv : TermEnv where
  mem := fun _ => noTerm
  size := 0
  atomIndexToName := ∅
  atomNameToIndex := ∅
  varNames := ∅

/-- A list of five bytes comes back, and 2 ^ 56 is turned into its bytes. -/
theorem conversion_five :
    (∃ env l, Returns env l [1, 2, 3, 4, 5]) ∧
      ∃ bytes, BigEndian emptyEnv (intCell (2 ^ 56)) bytes ∧
        Yields emptyEnv (intCell (2 ^ 56)) bytes := by
  have fits : emptyEnv.size + 8 * (([1, 2, 3, 4, 5] : List UInt8).map byteCell).length ≤
      2 ^ 61 := by decide
  have elements : ∀ a ∈ ([1, 2, 3, 4, 5] : List UInt8).map byteCell, Element emptyEnv a := by
    intro a inside
    obtain ⟨b, -, rfl⟩ := List.mem_map.1 inside
    intro isRef
    rw [byteCell_not_ref] at isRef
    cases isRef
  obtain ⟨-, small, -⟩ := buildList_ok fits elements
  have room : Room (buildList emptyEnv (([1, 2, 3, 4, 5] : List UInt8).map byteCell)).2 5 :=
    le_trans (Nat.add_le_add_right (Nat.add_le_add_right small _) _) (by decide)
  refine ⟨⟨_, _, ((conversion_faithful_iff _).1 _ [1, 2, 3, 4, 5]
    (properList_buildList fits elements) (by decide) room).2 fun _ ends => ?_⟩, ?_⟩
  · exact absurd ends.1 (by decide)
  · refine ((conversion_faithful_iff emptyEnv).2 (intCell (2 ^ 56))
      (.inr ⟨by decide, by unfold Room; decide⟩)).2 fun _ => ?_
    have value : intValue (intCell (2 ^ 56)) = 2 ^ 56 := intValue_intCell (by decide)
    rw [value]
    decide

/-- The number 1 is not turned into its bytes. -/
theorem one_without_bytes :
    ¬ ∀ env num, IsNumber env num → ∃ bytes, BigEndian env num bytes ∧ Yields env num bytes := by
  intro always
  have isNumber : IsNumber emptyEnv (intCell 1) := .inr ⟨by decide, by unfold Room; decide⟩
  have sign := (yields_bigEndian_iff isNumber).1 (always _ _ isNumber) (by decide)
  have value : intValue (intCell 1) = 1 := intValue_intCell (by decide)
  rw [value] at sign
  exact absurd sign (by decide)

end Faithful


end Epilog.Interp.BytesNumber
