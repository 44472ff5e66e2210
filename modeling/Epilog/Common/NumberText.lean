/- Module: Epilog/Common/NumberText
   source: src/src/common/term_parser.cpp (reduce_unsigned_number__natural_number),
     src/src/common/term_tokenizer.cpp (next_number)
   digest: Number literals in any base, and the integers and bignums that they denote. -/

import Epilog.Common.BigNumbers
import Epilog.Common.QuotedText
import Mathlib.Data.List.TakeWhile

set_option autoImplicit false

namespace Epilog.Common.NumberText

open Tokenizer BigBytes BigNumbers QuotedText

section Source

/-- `int_cell::max().value()` -/
def intMax : ℤ := 2 ^ 60 - 1

/-- The table `BASE_STANDARD_CONV`, by its ranges -/
def baseStandardConv (code : UInt8) : ℤ :=
  if 48 ≤ code.toNat ∧ code.toNat ≤ 57 then code.toNat - 48
  else if 65 ≤ code.toNat ∧ code.toNat ≤ 90 then code.toNat - 65 + 10
  else if 97 ≤ code.toNat ∧ code.toNat ≤ 122 then code.toNat - 97 + 10
  else -1

/-- The table `BASE_58_CONV`, by its ranges -/
def base58Conv (code : UInt8) : ℤ :=
  if 49 ≤ code.toNat ∧ code.toNat ≤ 57 then code.toNat - 49
  else if 65 ≤ code.toNat ∧ code.toNat ≤ 72 then code.toNat - 65 + 9
  else if 74 ≤ code.toNat ∧ code.toNat ≤ 78 then code.toNat - 74 + 17
  else if 80 ≤ code.toNat ∧ code.toNat ≤ 90 then code.toNat - 80 + 22
  else if 97 ≤ code.toNat ∧ code.toNat ≤ 107 then code.toNat - 97 + 33
  else if 109 ≤ code.toNat ∧ code.toNat ≤ 122 then code.toNat - 109 + 44
  else -1

def getBaseDigit (ch : UInt8) (base : ℤ) : ℤ :=
  if 128 ≤ ch.toNat then -1
  else if base = 58 then base58Conv ch
  else baseStandardConv ch

def skipUnderscores (text : List UInt8) : List UInt8 := text.filter (· ≠ '_'.toUInt8)

/-- `boost::lexical_cast<int>` of characters of a number, or `none` where it throws -/
def lexicalCast (text : List UInt8) : Option ℤ :=
  let value := text.foldl (fun (v : ℤ) ch => 10 * v + (ch.toNat - 48)) 0
  if text ≠ [] ∧ text.all isDigit ∧ value < 2 ^ 31 then some value else none

/-- `get_number_and_base`. The exception of the cast is no `std::runtime_error` and goes through. -/
def getNumberAndBase (str : List UInt8) : Option (List UInt8 × ℤ) :=
  if APOSTROPHE ∈ str then do
    let base ← lexicalCast (str.takeWhile (· ≠ APOSTROPHE))
    some (skipUnderscores ((str.dropWhile (· ≠ APOSTROPHE)).drop 1), base)
  else some (skipUnderscores str, 10)

/-- The loop of `is_inside_int`, whose `current` is an `uint128_t` -/
def insideIntLoop (base : ℤ) : List UInt8 → ℤ → Bool
  | [], _ => true
  | ch :: rest, current =>
    let next := (current * base + getBaseDigit ch base) % 2 ^ 128
    if intMax < next then false else insideIntLoop base rest next

def isInsideInt (num : List UInt8) (base : ℤ) : Bool := insideIntLoop base num 0

/-- The value that `get_int` and `to_cpp_int` compute -/
def accumulate (base : ℤ) (num : List UInt8) (current : ℤ) : ℤ :=
  num.foldl (fun current ch => current * base + getBaseDigit ch base) current

/-- `msb`, which throws unless its argument is positive -/
def msb (v : ℤ) : Option ℕ := if 0 < v then some (Nat.log2 v.toNat) else none

/-- `to_cpp_int`: the value and the number of bits -/
def toCppInt (num : List UInt8) (base : ℤ) : Option (ℤ × ℕ) := do
  let out := accumulate base num 0
  let leadingZeros := num.head?.any fun ch => getBaseDigit ch base = 0
  let nbits ← if leadingZeros then msb (base ^ num.length) else msb out
  some (out, nbits)

/-- What the parser makes of a number: an integer cell, or a new bignum of a number of bits -/
inductive Parsed
  | int (v : ℤ)
  | big (v nbits : ℕ)
  deriving DecidableEq

/-- The integer or the bignum of `reduce_unsigned_number__natural_number`, or `none` where it
throws. `new_big` throws for a negative number. -/
def reduceDigits (number : List UInt8) (base : ℤ) : Option Parsed :=
  if isInsideInt number base then some (.int (accumulate base number 0))
  else do
    let (val, nbits) ← toCppInt number base
    let nbits := if val ≠ 0 then (nbits + 7) / 8 * 8 else nbits
    if val < 0 then none else some (.big val.toNat nbits)

def reduceNaturalNumber (lexeme : List UInt8) : Option Parsed := do
  let (number, base) ← getNumberAndBase lexeme
  reduceDigits number base

/-- A text that is one number -/
def readNumber (text : List UInt8) : Option Parsed :=
  match nextToken text with
  | .ok (token, []) =>
    if token.type = .naturalNumber then reduceNaturalNumber token.lexeme else none
  | _ => none

end Source

section Specification

/-- The bases that the printer and the tokenizer speak of -/
def Supported (b : ℕ) : Prop := 2 ≤ b ∧ b ≤ 36 ∨ b = 58

instance (b : ℕ) : Decidable (Supported b) := inferInstanceAs (Decidable (_ ∨ _))

/-- The letters and digits -/
def isAlnum (ch : UInt8) : Bool :=
  isDigit ch ∨ 65 ≤ ch.toNat ∧ ch.toNat ≤ 90 ∨ 97 ≤ ch.toNat ∧ ch.toNat ≤ 122

/-- A number literal with its base and its digits -/
inductive NumberLiteral : List UInt8 → ℕ → List UInt8 → Prop
  | based {b : ℕ} {digits : List UInt8} (supported : Supported b) (some_ : digits ≠ [])
      (alnum : ∀ d ∈ digits, isAlnum d = true) :
      NumberLiteral (decimal b ++ APOSTROPHE :: digits) b digits
  | plain {digits : List UInt8} (some_ : digits ≠ []) (decimals : ∀ d ∈ digits, isDigit d = true) :
      NumberLiteral digits 10 digits

def ValidDigit (b : ℕ) (d : UInt8) : Prop := 0 ≤ getBaseDigit d b ∧ getBaseDigit d b < b

instance (b : ℕ) (d : UInt8) : Decidable (ValidDigit b d) := inferInstanceAs (Decidable (_ ∧ _))

def value (b : ℕ) (digits : List UInt8) : ℕ :=
  Nat.ofDigits b (digits.reverse.map fun d => (getBaseDigit d b).toNat)

/-- A number in the heap `m` denotes a value: an integer within the range of the cell, or a bignum
of sufficient size that holds a larger one. -/
def Denotes (m : Memory) : Parsed → ℕ → Prop
  | .int w, v => w = v ∧ w ≤ intMax
  | .big w nbits, v => w = v ∧ intMax < v ∧ v < 2 ^ nbits ∧ Stored m v nbits

/-- A literal is accepted exactly if its digits are smaller than the base, and then denotes its
positional value. -/
def Meets (m : Memory) (text : List UInt8) (b : ℕ) (digits : List UInt8) : Prop :=
  ((readNumber text).isSome = true ↔ ∀ d ∈ digits, ValidDigit b d) ∧
    ∀ parsed, readNumber text = some parsed → Denotes m parsed (value b digits)

/-- The first digit is zero. -/
def LeadingZero (b : ℕ) (digits : List UInt8) : Prop :=
  digits.head?.any (fun d => getBaseDigit d b = 0) = true

instance (b : ℕ) (digits : List UInt8) : Decidable (LeadingZero b digits) :=
  inferInstanceAs (Decidable (_ = _))

/-- The size of the bignum: by the number of digits where the first one is zero, else by the
position of the highest bit of the value -/
def literalBits (b : ℕ) (digits : List UInt8) : ℕ :=
  wholeBits (if LeadingZero b digits then Nat.log2 (b ^ digits.length)
    else Nat.log2 (value b digits))

/-- The first digit that is not zero is none of the base. -/
def Rejected (b : ℕ) (digits : List UInt8) : Prop :=
  ∃ d ∈ (digits.dropWhile fun d => getBaseDigit d b = 0).head?, getBaseDigit d b = -1

end Specification

section Digits

variable {b : ℕ}

theorem baseDigit_le : ∀ d : UInt8, -1 ≤ getBaseDigit d 58 ∧ getBaseDigit d 58 < 58 ∧
    (isAlnum d = true → 0 ≤ baseStandardConv d ∧ baseStandardConv d < 36 ∧ d.toNat < 128) :=
  forall_byte (by decide +kernel)

theorem digit_bounds (d : UInt8) (alnum : isAlnum d = true) :
    (b ≠ 58 → 0 ≤ getBaseDigit d b ∧ getBaseDigit d b < 58) ∧
      (b = 58 → -1 ≤ getBaseDigit d b ∧ getBaseDigit d b < b) := by
  obtain ⟨least, most, standard⟩ := baseDigit_le d
  obtain ⟨nonneg, small, ascii⟩ := standard alnum
  constructor
  · intro other
    have different : (b : ℤ) ≠ 58 := by exact_mod_cast other
    rw [getBaseDigit, if_neg (not_le.2 ascii), if_neg different]
    exact ⟨nonneg, small.trans (by decide)⟩
  · rintro rfl
    exact ⟨least, most⟩

theorem accumulate_cons (base : ℤ) (ch : UInt8) (rest : List UInt8) (current : ℤ) :
    accumulate base (ch :: rest) current =
      accumulate base rest (current * base + getBaseDigit ch base) := rfl

theorem accumulate_pos (two : 2 ≤ b) {digits : List UInt8}
    (least : ∀ d ∈ digits, -1 ≤ getBaseDigit d b) {current : ℤ} (positive : 1 ≤ current) :
    1 ≤ accumulate b digits current := by
  induction digits generalizing current with
  | nil => exact positive
  | cons d digits ih =>
    rw [accumulate_cons]
    refine ih (fun e inside => least e (List.mem_cons_of_mem _ inside)) ?_
    have here := least d List.mem_cons_self
    have double : 1 * 2 ≤ current * b :=
      mul_le_mul positive (by exact_mod_cast two) (by decide) (by linarith)
    linarith

theorem accumulate_neg {digits : List UInt8} (small : ∀ d ∈ digits, getBaseDigit d b < b)
    {current : ℤ} (negative : current ≤ -1) : accumulate b digits current ≤ -1 := by
  induction digits generalizing current with
  | nil => exact negative
  | cons d digits ih =>
    rw [accumulate_cons]
    refine ih (fun e inside => small e (List.mem_cons_of_mem _ inside)) ?_
    have here := small d List.mem_cons_self
    have below : current * b ≤ -1 * b := mul_le_mul_of_nonneg_right negative (Int.natCast_nonneg b)
    linarith

/-- The digits of a literal, over all bases -/
structure Usable (b : ℕ) (digits : List UInt8) : Prop where
  two : 2 ≤ b
  small_base : b ≤ 58
  least : ∀ d ∈ digits, -1 ≤ getBaseDigit d b
  most : ∀ d ∈ digits, getBaseDigit d b < 58
  missing : b = 58 ∨ ∀ d ∈ digits, 0 ≤ getBaseDigit d b

theorem Usable.tail {d : UInt8} {digits : List UInt8} (usable : Usable b (d :: digits)) :
    Usable b digits where
  two := usable.two
  small_base := usable.small_base
  least e inside := usable.least e (List.mem_cons_of_mem _ inside)
  most e inside := usable.most e (List.mem_cons_of_mem _ inside)
  missing := usable.missing.imp_right fun nonneg e inside =>
    nonneg e (List.mem_cons_of_mem _ inside)

theorem usable_of_literal {text digits : List UInt8} (literal : NumberLiteral text b digits) :
    Usable b digits := by
  have bounds : Supported b ∧ ∀ d ∈ digits, isAlnum d = true := by
    cases literal with
    | based supported _ alnum => exact ⟨supported, alnum⟩
    | plain _ decimals =>
      refine ⟨Or.inl ⟨by decide, by decide⟩, fun d inside => ?_⟩
      have digit : isDigit d = true := decimals d inside
      simp [isAlnum, digit]
  obtain ⟨supported, alnum⟩ := bounds
  by_cases is58 : b = 58
  · subst is58
    have inside := fun d (inside : d ∈ digits) =>
      (digit_bounds (b := 58) d (alnum d inside)).2 rfl
    exact ⟨by decide, le_rfl, fun d among => (inside d among).1, fun d among => (inside d among).2,
      Or.inl rfl⟩
  · obtain ⟨two, most⟩ := supported.resolve_right is58
    have inside := fun d (inside : d ∈ digits) => (digit_bounds (b := b) d (alnum d inside)).1 is58
    exact ⟨two, by omega, fun d among => (by decide : (-1 : ℤ) ≤ 0).trans (inside d among).1,
      fun d among => (inside d among).2, Or.inr fun d among => (inside d among).1⟩

end Digits

section Values

variable {b : ℕ} {digits : List UInt8}

theorem rejected_iff (usable : Usable b digits) :
    accumulate b digits 0 < 0 ↔ Rejected b digits := by
  induction digits with
  | nil => simp [accumulate, Rejected]
  | cons d digits ih =>
    rw [accumulate_cons, zero_mul, zero_add]
    by_cases zero : getBaseDigit d b = 0
    · rw [zero, ih usable.tail]
      unfold Rejected
      rw [List.dropWhile_cons_of_pos (by simpa using zero)]
    · have here : Rejected b (d :: digits) ↔ getBaseDigit d b = -1 := by
        unfold Rejected
        rw [List.dropWhile_cons_of_neg (by simpa using zero)]
        simp
      rw [here]
      have least := usable.least d List.mem_cons_self
      by_cases missing : getBaseDigit d b = -1
      · have is58 : b = 58 := usable.missing.resolve_right fun nonneg => by
          have := nonneg d List.mem_cons_self
          omega
        have most : ∀ e ∈ digits, getBaseDigit e b < b := fun e inside => by
          have := usable.tail.most e inside
          rw [is58] at this ⊢
          exact this
        have negative := accumulate_neg most (le_of_eq missing)
        exact iff_of_true (by omega) missing
      · have positive := accumulate_pos usable.two usable.tail.least
          (show 1 ≤ getBaseDigit d b by omega)
        exact iff_of_false (by omega) missing

theorem accumulate_ne_zero {d : UInt8} (usable : Usable b (d :: digits))
    (nonzero : getBaseDigit d b ≠ 0) : accumulate b (d :: digits) 0 ≠ 0 := by
  intro zero
  have notRejected : ¬ Rejected b (d :: digits) := fun rejected => by
    have := (rejected_iff usable).2 rejected
    omega
  have positive : 1 ≤ getBaseDigit d b := by
    have least := usable.least d List.mem_cons_self
    by_contra below
    refine notRejected ⟨d, ?_, by omega⟩
    rw [List.dropWhile_cons_of_neg (by simpa using nonzero)]
    rfl
  have := accumulate_pos usable.two usable.tail.least positive
  rw [accumulate_cons, zero_mul, zero_add] at zero
  omega

theorem next_inside {current d : ℤ} (small : b ≤ 58) (nonneg : 0 ≤ current)
    (inside : current ≤ intMax) (least : -1 ≤ d) (most : d < 58) :
    (current * b + d) % 2 ^ 128 ≤ intMax ↔
      0 ≤ current * b + d ∧ current * b + d ≤ intMax := by
  have product : 0 ≤ current * b ∧ current * b ≤ intMax * 58 :=
    ⟨mul_nonneg nonneg (Int.natCast_nonneg b),
      mul_le_mul inside (by exact_mod_cast small) (Int.natCast_nonneg b) (by decide)⟩
  unfold intMax at *
  generalize current * b = p at *
  omega

theorem insideIntLoop_cons {current : ℤ} (ch : UInt8) (rest : List UInt8) :
    insideIntLoop b (ch :: rest) current = true ↔
      (current * b + getBaseDigit ch b) % 2 ^ 128 ≤ intMax ∧
        insideIntLoop b rest ((current * b + getBaseDigit ch b) % 2 ^ 128) = true := by
  rw [insideIntLoop]
  split
  · next above => exact iff_of_false Bool.false_ne_true fun ⟨below, _⟩ => not_le.2 above below
  · next below => exact (and_iff_right (not_lt.1 below)).symm

theorem inside_bounds (usable : Usable b digits) {current : ℤ} (nonneg : 0 ≤ current)
    (small : current ≤ intMax) (inside : insideIntLoop b digits current = true) :
    0 ≤ accumulate b digits current ∧ accumulate b digits current ≤ intMax := by
  induction digits generalizing current with
  | nil => exact ⟨nonneg, small⟩
  | cons d digits ih =>
    obtain ⟨below, later⟩ := (insideIntLoop_cons d digits).1 inside
    obtain ⟨nonneg', small'⟩ := (next_inside usable.small_base nonneg small
      (usable.least d List.mem_cons_self) (usable.most d List.mem_cons_self)).1 below
    have same : (current * b + getBaseDigit d b) % 2 ^ 128 = current * b + getBaseDigit d b :=
      Int.emod_eq_of_lt nonneg' (small'.trans_lt (by decide))
    rw [same] at later
    exact ih usable.tail nonneg' small' later

theorem le_accumulate (two : 2 ≤ b) (nonnegs : ∀ d ∈ digits, 0 ≤ getBaseDigit d b) {current : ℤ}
    (nonneg : 0 ≤ current) : current ≤ accumulate b digits current := by
  induction digits generalizing current with
  | nil => exact le_rfl
  | cons d digits ih =>
    have here := nonnegs d List.mem_cons_self
    have more : current * 1 ≤ current * b :=
      mul_le_mul_of_nonneg_left (by exact_mod_cast (by omega : 1 ≤ b)) nonneg
    rw [accumulate_cons]
    have later := ih (fun e inside => nonnegs e (List.mem_cons_of_mem _ inside))
      (show 0 ≤ current * b + getBaseDigit d b by linarith)
    linarith

theorem inside_of_le (usable : Usable b digits) (nonnegs : ∀ d ∈ digits, 0 ≤ getBaseDigit d b)
    {current : ℤ} (nonneg : 0 ≤ current) (below : accumulate b digits current ≤ intMax) :
    insideIntLoop b digits current = true := by
  induction digits generalizing current with
  | nil => rfl
  | cons d digits ih =>
    have here := nonnegs d List.mem_cons_self
    have later : ∀ e ∈ digits, 0 ≤ getBaseDigit e b := fun e inside =>
      nonnegs e (List.mem_cons_of_mem _ inside)
    have product : 0 ≤ current * b := mul_nonneg nonneg (Int.natCast_nonneg b)
    have small := (le_accumulate usable.two later
      (show 0 ≤ current * b + getBaseDigit d b by linarith)).trans below
    have same : (current * b + getBaseDigit d b) % 2 ^ 128 = current * b + getBaseDigit d b :=
      Int.emod_eq_of_lt (by linarith) (small.trans_lt (by decide))
    rw [insideIntLoop_cons, same]
    exact ⟨small, ih usable.tail later (by linarith) below⟩

theorem accumulate_eq_value (valid : ∀ d ∈ digits, ValidDigit b d) :
    accumulate b digits 0 = value b digits := by
  induction digits using List.reverseRecOn with
  | nil => rfl
  | append_singleton digits d ih =>
    have here := (valid d (List.mem_append_right _ List.mem_cons_self)).1
    have before := ih fun e inside => valid e (List.mem_append_left _ inside)
    unfold accumulate at before ⊢
    rw [List.foldl_append, List.foldl_cons, List.foldl_nil, before]
    unfold value
    rw [List.reverse_append, List.reverse_singleton, List.singleton_append, List.map_cons,
      Nat.ofDigits_cons, Nat.cast_add, Nat.cast_mul, Int.toNat_of_nonneg here]
    ring

theorem value_lt (two : 2 ≤ b) (valid : ∀ d ∈ digits, ValidDigit b d) :
    value b digits < b ^ digits.length := by
  have bound := Nat.ofDigits_lt_base_pow_length (b := b)
    (l := digits.reverse.map fun d => (getBaseDigit d b).toNat) (by omega) fun v inside => by
      obtain ⟨d, among, rfl⟩ := List.mem_map.1 inside
      obtain ⟨nonneg, small⟩ := valid d (List.mem_reverse.1 among)
      omega
  rwa [List.length_map, List.length_reverse] at bound

end Values

section Tokens

variable {b : ℕ} {digits : List UInt8}

theorem decimal_supported (b : Fin 59) (supported : Supported b) :
    (∀ d ∈ decimal b, isDigit d = true) ∧ decimal b ≠ [] ∧ decimal b ≠ ['0'.toUInt8] ∧
      lexicalCast (decimal b) = some (b.val : ℤ) := by
  -- the digits as a test of the list, which the kernel runs faster than one of all bytes
  have table : ∀ b : Fin 59, Supported b → (decimal b).all isDigit = true ∧ decimal b ≠ [] ∧
      decimal b ≠ ['0'.toUInt8] ∧ lexicalCast (decimal b) = some (b.val : ℤ) := by
    decide +kernel
  obtain ⟨digits, some_, notZero, cast⟩ := table b supported
  exact ⟨List.all_eq_true.1 digits, some_, notZero, cast⟩

theorem alpha_of_alnum : ∀ d : UInt8, isAlnum d = true →
    isAlpha d = true ∧ d ≠ '_'.toUInt8 ∧ d ≠ APOSTROPHE := forall_byte (by decide +kernel)

theorem alnum_of_digit : ∀ d : UInt8, isDigit d = true →
    isAlnum d = true := forall_byte (by decide +kernel)

theorem digit_starts : ∀ d : UInt8, isDigit d = true →
    d ≠ '%'.toUInt8 ∧ d ≠ '/'.toUInt8 := forall_byte (by decide +kernel)

theorem integerDigits_append {rest : List UInt8} (digit : ∀ d ∈ digits, isDigit d = true)
    (stops : ∀ some_ underscore, integerDigits some_ underscore rest = ([], rest))
    (some_ underscore : Bool) :
    integerDigits some_ underscore (digits ++ rest) = (digits, rest) := by
  induction digits generalizing some_ underscore with
  | nil => exact stops some_ underscore
  | cons d digits ih =>
    rw [List.cons_append, integerDigits, if_pos (digit d List.mem_cons_self),
      ih fun e inside => digit e (List.mem_cons_of_mem _ inside)]

theorem nextToken_digit {d : UInt8} (digit : isDigit d = true) (text : List UInt8) :
    nextToken (d :: text) = nextNumber (d :: text) >>= fun reading =>
      .ok (⟨reading.1, reading.2.1, false⟩, reading.2.2) := by
  obtain ⟨noPercent, noSlash⟩ := digit_starts d digit
  have noComment : ¬ isCommentBegin (d :: text) = true := by
    intro begins
    obtain percent | slash := of_decide_eq_true begins
    · exact noPercent (Option.some.inj percent)
    · exact noSlash (List.cons.inj slash).1
  unfold nextToken
  dsimp only
  rw [if_neg noComment, if_pos digit]

theorem readNumber_of_token {text lexeme : List UInt8} {d : UInt8} (digit : isDigit d = true)
    (number : nextNumber (d :: text) = .ok (.naturalNumber, lexeme, [])) :
    readNumber (d :: text) = reduceNaturalNumber lexeme := by
  unfold readNumber
  rw [nextToken_digit digit, number]
  rfl

theorem nextNumber_based (supported : Supported b) (some_ : digits ≠ [])
    (alnum : ∀ d ∈ digits, isAlnum d = true) :
    nextNumber (decimal b ++ APOSTROPHE :: digits) =
      .ok (.naturalNumber, decimal b ++ APOSTROPHE :: digits, []) := by
  have bound : b < 59 := by
    unfold Supported at supported
    omega
  obtain ⟨digit, _, noZero, _⟩ := decimal_supported ⟨b, bound⟩ supported
  have alphas : nextXs isAlpha digits = (digits, []) := by
    have all : ∀ d ∈ digits, isAlpha d = true := fun d inside =>
      (alpha_of_alnum d (alnum d inside)).1
    rw [nextXs, List.takeWhile_eq_self_iff.2 all, List.dropWhile_eq_nil_iff.2 all]
  have read : nextIntegerDigits (decimal b ++ APOSTROPHE :: digits) =
      (decimal b, APOSTROPHE :: digits) :=
    integerDigits_append digit (fun _ _ => rfl) false false
  unfold nextNumber
  rw [read]
  dsimp only
  rw [if_pos rfl, if_neg noZero, alphas]
  dsimp only
  rw [if_neg some_]

theorem nextNumber_plain (decimals : ∀ d ∈ digits, isDigit d = true) :
    nextNumber digits = .ok (.naturalNumber, digits, []) := by
  have read : nextIntegerDigits digits = (digits, []) := by
    have appended : integerDigits false false (digits ++ []) = (digits, []) :=
      integerDigits_append decimals (fun _ _ => rfl) false false
    rwa [List.append_nil] at appended
  unfold nextNumber
  rw [read]

theorem skipUnderscores_alnum (alnum : ∀ d ∈ digits, isAlnum d = true) :
    skipUnderscores digits = digits :=
  List.filter_eq_self.2 fun d inside =>
    decide_eq_true (alpha_of_alnum d (alnum d inside)).2.1

theorem readNumber_literal {text : List UInt8} (literal : NumberLiteral text b digits) :
    readNumber text = reduceDigits digits b := by
  cases literal with
  | based supported some_ alnum =>
    have bound : b < 59 := by
      unfold Supported at supported
      omega
    obtain ⟨digit, first, _, cast⟩ := decimal_supported ⟨b, bound⟩ supported
    have token := nextNumber_based supported some_ alnum
    have noQuote : ∀ d ∈ decimal b, decide (d ≠ APOSTROPHE) = true := fun d inside =>
      decide_eq_true (alpha_of_alnum d (alnum_of_digit d (digit d inside))).2.2
    have split : getNumberAndBase (decimal b ++ APOSTROPHE :: digits) = some (digits, (b : ℤ)) := by
      unfold getNumberAndBase
      rw [if_pos (by simp), List.takeWhile_append_of_pos noQuote,
        List.dropWhile_append_of_pos noQuote, List.takeWhile_cons_of_neg (by simp),
        List.dropWhile_cons_of_neg (by simp), List.append_nil]
      change (do
        let base ← lexicalCast (decimal b)
        some (skipUnderscores digits, base)) = _
      rw [cast, skipUnderscores_alnum alnum]
      rfl
    obtain ⟨d, rest, shape⟩ := List.exists_cons_of_ne_nil first
    have head : isDigit d = true := digit d (shape ▸ List.mem_cons_self)
    change decimal b = d :: rest at shape
    rw [shape, List.cons_append] at token split ⊢
    rw [readNumber_of_token head token, reduceNaturalNumber, split]
    rfl
  | plain some_ decimals =>
    have alnum : ∀ d ∈ digits, isAlnum d = true := fun d inside =>
      alnum_of_digit d (decimals d inside)
    have noQuote : APOSTROPHE ∉ digits := fun inside =>
      (alpha_of_alnum _ (alnum _ inside)).2.2 rfl
    have token := nextNumber_plain decimals
    obtain ⟨d, rest, rfl⟩ := List.exists_cons_of_ne_nil some_
    have head : isDigit d = true := decimals d List.mem_cons_self
    rw [readNumber_of_token head token, reduceNaturalNumber, getNumberAndBase, if_neg noQuote,
      skipUnderscores_alnum alnum]
    rfl

end Tokens

section Outcome

variable {b : ℕ} {digits : List UInt8}

theorem msb_of_pos {v : ℕ} (positive : 0 < v) : msb v = some (Nat.log2 v) := by
  rw [msb, if_pos (by exact_mod_cast positive), Int.toNat_natCast]

theorem toCppInt_zero (two : 2 ≤ b) (leading : LeadingZero b digits) :
    toCppInt digits b = some (accumulate b digits 0, Nat.log2 (b ^ digits.length)) := by
  have positive : 0 < b ^ digits.length := Nat.pow_pos (by omega)
  have bits := msb_of_pos positive
  rw [Nat.cast_pow] at bits
  have zeros : (digits.head?.any fun ch => getBaseDigit ch b = 0) = true := leading
  unfold toCppInt
  dsimp only
  rw [if_pos zeros, bits]
  rfl

theorem toCppInt_other (other : ¬ LeadingZero b digits) :
    toCppInt digits b =
      (msb (accumulate b digits 0)).map fun bits => (accumulate b digits 0, bits) := by
  have noZeros : ¬ (digits.head?.any fun ch => getBaseDigit ch b = 0) = true := other
  unfold toCppInt
  dsimp only
  rw [if_neg noZeros]
  cases msb (accumulate b digits 0) <;> rfl

theorem first_ne_zero {d : UInt8} (other : ¬ LeadingZero b (d :: digits)) :
    getBaseDigit d b ≠ 0 := by
  intro zero
  exact other (by simp [LeadingZero, zero])

theorem reduceDigits_isSome_iff (usable : Usable b digits) (some_ : digits ≠ []) :
    (reduceDigits digits b).isSome = true ↔ ¬ Rejected b digits := by
  rw [← rejected_iff usable, not_lt]
  unfold reduceDigits
  split
  · next inside =>
    have bounds := inside_bounds usable le_rfl (by decide) inside
    exact iff_of_true rfl bounds.1
  · by_cases leading : LeadingZero b digits
    · rw [toCppInt_zero usable.two leading]
      dsimp only [Option.bind_eq_bind, Option.bind_some]
      split
      · next negative => exact iff_of_false Bool.false_ne_true (not_le.2 negative)
      · next nonneg => exact iff_of_true rfl (not_lt.1 nonneg)
    · rw [toCppInt_other leading]
      obtain ⟨d, rest, rfl⟩ := List.exists_cons_of_ne_nil some_
      have nonzero := accumulate_ne_zero usable (first_ne_zero leading)
      by_cases positive : 0 < accumulate b (d :: rest) 0
      · rw [msb, if_pos positive]
        dsimp only [Option.bind_eq_bind, Option.bind_some, Option.map_some]
        rw [if_neg (not_lt.2 positive.le)]
        exact iff_of_true rfl positive.le
      · rw [msb, if_neg positive]
        exact iff_of_false Bool.false_ne_true fun nonneg =>
          positive (lt_of_le_of_ne nonneg nonzero.symm)

theorem reduceDigits_small (usable : Usable b digits) (valid : ∀ d ∈ digits, ValidDigit b d)
    (small : value b digits ≤ intMax) :
    reduceDigits digits b = some (.int (value b digits)) := by
  have inside : isInsideInt digits b = true :=
    inside_of_le usable (fun d among => (valid d among).1) le_rfl
      ((accumulate_eq_value valid).le.trans small)
  rw [reduceDigits, if_pos inside, accumulate_eq_value valid]

theorem reduceDigits_large (usable : Usable b digits) (valid : ∀ d ∈ digits, ValidDigit b d)
    (large : intMax < value b digits) :
    reduceDigits digits b = some (.big (value b digits) (literalBits b digits)) := by
  have same := accumulate_eq_value valid
  have outside : ¬ isInsideInt digits b = true := fun inside => by
    have bounds := inside_bounds usable le_rfl (by decide) inside
    rw [same] at bounds
    exact not_le.2 large bounds.2
  have positive : 0 < value b digits := by
    have : (0 : ℤ) < value b digits := lt_trans (by decide) large
    exact_mod_cast this
  have nonzero : (value b digits : ℤ) ≠ 0 := by exact_mod_cast positive.ne'
  have nonneg : ¬ (value b digits : ℤ) < 0 := not_lt.2 (Int.natCast_nonneg _)
  rw [reduceDigits, if_neg outside, literalBits, wholeBits]
  by_cases leading : LeadingZero b digits
  · rw [toCppInt_zero usable.two leading, same]
    dsimp only [Option.bind_eq_bind, Option.bind_some]
    rw [if_pos nonzero, if_neg nonneg, Int.toNat_natCast, if_pos leading]
  · rw [toCppInt_other leading, same, msb_of_pos positive]
    dsimp only [Option.bind_eq_bind, Option.bind_some, Option.map_some]
    rw [if_pos nonzero, if_neg nonneg, Int.toNat_natCast, if_neg leading]

theorem value_lt_pow (usable : Usable b digits) (valid : ∀ d ∈ digits, ValidDigit b d)
    (positive : value b digits ≠ 0) (highest : Nat.log2 (value b digits) % 8 ≠ 0) :
    value b digits < 2 ^ literalBits b digits := by
  have wide : ∀ n, n ≤ wholeBits n := fun n => by
    unfold wholeBits
    omega
  by_cases leading : LeadingZero b digits
  · obtain _ | ⟨d, rest⟩ := digits
    · cases leading
    have zero : getBaseDigit d b = 0 := by simpa [LeadingZero] using leading
    have restValid : ∀ e ∈ rest, ValidDigit b e := fun e inside =>
      valid e (List.mem_cons_of_mem _ inside)
    have same : value b (d :: rest) = value b rest := by
      unfold value
      rw [List.reverse_cons, List.map_append, Nat.ofDigits_append, List.map_singleton, zero]
      simp
    have below := value_lt usable.two restValid
    have double : 2 * b ^ rest.length ≤ b ^ (d :: rest).length := by
      rw [List.length_cons, pow_succ, Nat.mul_comm]
      exact Nat.mul_le_mul_left _ usable.two
    have upper := Nat.lt_log2_self (n := b ^ (d :: rest).length)
    rw [pow_succ] at upper
    have bits : value b (d :: rest) < 2 ^ Nat.log2 (b ^ (d :: rest).length) := by
      rw [same]
      omega
    rw [literalBits, if_pos leading]
    exact bits.trans_le (Nat.pow_le_pow_right (by decide) (wide _))
  · rw [literalBits, if_neg leading]
    have upper := Nat.lt_log2_self (n := value b digits)
    refine upper.trans_le (Nat.pow_le_pow_right (by decide) ?_)
    unfold wholeBits
    omega

end Outcome

section Result

/-- The literals that are read as they should be: digits of the base whose value fits into an
integer cell or into the bignum that is allocated for it, and characters that have no value in
base 58 before any digit that counts -/
def Sound (size b : ℕ) (digits : List UInt8) : Prop :=
  (∀ d ∈ digits, ValidDigit b d) ∧
      (value b digits ≤ intMax ∨ Storable size (value b digits) (literalBits b digits)) ∨
    Rejected b digits

theorem not_valid_of_rejected {b : ℕ} {digits : List UInt8} (rejected : Rejected b digits) :
    ¬ ∀ d ∈ digits, ValidDigit b d := by
  obtain ⟨d, first, missing⟩ := rejected
  intro valid
  have among : d ∈ digits := (List.dropWhile_suffix _).subset (List.mem_of_mem_head? first)
  have := (valid d among).1
  omega

/-- A literal is accepted exactly if its digits are below the base, and denotes its value, exactly
if it is sound. -/
theorem readsNumber_iff (m : Memory) {text digits : List UInt8} {b : ℕ}
    (literal : NumberLiteral text b digits) :
    Meets m text b digits ↔ Sound m.size b digits := by
  have usable := usable_of_literal literal
  have some_ : digits ≠ [] := by
    cases literal with
    | based _ some_ _ => exact some_
    | plain some_ _ => exact some_
  unfold Meets Sound
  rw [readNumber_literal literal, reduceDigits_isSome_iff usable some_]
  by_cases valid : ∀ d ∈ digits, ValidDigit b d
  · have accepted : ¬ Rejected b digits := fun rejected => not_valid_of_rejected rejected valid
    rw [and_iff_right (iff_of_true accepted valid), and_iff_right valid, or_iff_left accepted]
    by_cases small : value b digits ≤ intMax
    · rw [reduceDigits_small usable valid small]
      refine iff_of_true ?_ (Or.inl small)
      rintro _ ⟨⟩
      exact ⟨rfl, small⟩
    · have large : intMax < value b digits := not_le.1 small
      have nonzero : value b digits ≠ 0 := by
        intro zero
        rw [zero] at large
        exact absurd large (by decide)
      rw [reduceDigits_large usable valid large, or_iff_right small]
      constructor
      · intro denotes
        obtain ⟨_, _, bits, stored⟩ := denotes _ rfl
        exact (stored_iff m bits).1 stored
      · rintro storable _ ⟨⟩
        have bits := value_lt_pow usable valid nonzero (storable.2.2.1.resolve_left nonzero)
        exact ⟨rfl, large, bits, (stored_iff m bits).2 storable⟩
  · rw [or_iff_right fun both => valid both.1]
    constructor
    · rintro ⟨accepts, _⟩
      exact not_not.1 fun accepted => valid (accepts.1 accepted)
    · intro rejected
      refine ⟨iff_of_false (not_not.2 rejected) valid, fun parsed parses => ?_⟩
      have accepted := (reduceDigits_isSome_iff usable some_).1 (Option.isSome_of_mem parses)
      exact absurd rejected accepted

theorem forall_digit {P : UInt8 → Prop} [DecidablePred P] {digits : List UInt8}
    (each : digits.all (fun d => decide (P d)) = true) : ∀ d ∈ digits, P d := by
  intro d member
  exact of_decide_eq_true (List.all_eq_true.mp each d member)

/-- A large decimal number -/
theorem decimal_sound : Meets emptyHeap (decimal 10000000000000000000) 10
    (decimal 10000000000000000000) :=
  (readsNumber_iff emptyHeap (.plain (by decide) (forall_digit (by decide)))).2
    (Or.inl ⟨forall_digit (by decide), Or.inr ⟨by decide, by decide,
      Or.inr (by decide), by decide⟩⟩)

/-- Nine is no binary digit, and is accepted as one. -/
theorem two_nine : ¬ ∀ (m : Memory) (text : List UInt8) (b : ℕ) (digits : List UInt8),
    NumberLiteral text b digits → Meets m text b digits := by
  intro always
  have supported : Supported 2 := by decide
  have literal : NumberLiteral (decimal 2 ++ [APOSTROPHE, '9'.toUInt8]) 2 ['9'.toUInt8] :=
    .based supported (by decide) (forall_digit (by decide))
  have accepts := (always emptyHeap _ _ _ literal).1
  have accepted : readNumber (decimal 2 ++ [APOSTROPHE, '9'.toUInt8]) = some (.int 9) := by
    decide
  rw [accepted] at accepts
  exact absurd (accepts.1 rfl) (by decide)

end Result

end Epilog.Common.NumberText
