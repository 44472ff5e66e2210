/- Module: Epilog/Common/BigText
   source: src/src/common/term.cpp (big_to_string, big16_to_string),
     src/src/common/term_emitter.cpp (emit_big)
   digest: The text of a bignum, and when the parser recovers its value and its size. -/

import Epilog.Common.NumberText

set_option autoImplicit false

namespace Epilog.Common.BigText

open Tokenizer BigNumbers QuotedText NumberText

section Source

/-- A bignum: its size and its bytes, the most significant one first -/
structure Big where
  nbits : ℕ
  bytes : List UInt8
  whole : bytes.length = (nbits + 7) / 8

def Big.value (big : Big) : ℕ := importBits big.bytes

/-- The table `BASE_STD` -/
def baseStd (digit : ℕ) : UInt8 := UInt8.ofNat (if digit < 10 then 48 + digit else 87 + digit)

/-- The table `BASE_58`, by its ranges -/
def base58 (digit : ℕ) : UInt8 :=
  UInt8.ofNat (if digit < 9 then 49 + digit
    else if digit < 17 then 65 + (digit - 9)
    else if digit < 22 then 74 + (digit - 17)
    else if digit < 33 then 80 + (digit - 22)
    else if digit < 44 then 97 + (digit - 33)
    else 109 + (digit - 44))

/-- The loop of `big_to_string`, from the last digit on, as long as `maxval` is not zero -/
def digitLoop (base : ℕ) : ℕ → ℕ → ℕ → List ℕ
  | 0, _, _ => []
  | n + 1, val, maxval =>
    if maxval = 0 then [] else val % base :: digitLoop base n (val / base) (maxval / base)

/-- `maxval`, which gives the number of digits -/
def maxVal (i base nbits : ℕ) : ℕ :=
  if i = 0 then 1
  else if base = 16 ∨ base = 58 then
    let numericNbits := Nat.log2 i + 1
    if numericNbits < nbits ∧ 6 ≤ nbits - numericNbits then 2 ^ (nbits - 1) else i
  else i

/-- The digits of `big_to_string`, the first one first -/
def bigDigits (i base nbits : ℕ) : List ℕ :=
  (digitLoop base (Nat.log2 (maxVal i base nbits) + 1) i (maxVal i base nbits)).reverse

def bigToString (i base nbits : ℕ) : List UInt8 :=
  (bigDigits i base nbits).map fun digit => if base = 58 then base58 digit else baseStd digit

def big16ToString (bytes : List UInt8) : List UInt8 :=
  bytes.flatMap fun byte => [baseStd (byte.toNat / 16), baseStd (byte.toNat % 16)]

/-- `emit_big`, outside of the interactive mode -/
def emitBig (big : Big) : List UInt8 :=
  if big.nbits ≤ 64 then bigToString big.value 10 big.nbits
  else if 8192 < big.nbits then decimal 16 ++ APOSTROPHE :: big16ToString big.bytes
  else decimal 58 ++ APOSTROPHE :: bigToString big.value 58 big.nbits

end Source

section Specification

/-- The parser makes of the text a bignum of the same value and size, which is stored. -/
def RoundTrips (m : BigBytes.Memory) (big : Big) : Prop :=
  readNumber (emitBig big) = some (.big big.value big.nbits) ∧ Stored m big.value big.nbits

/-- The number of digits in base 58 of the largest power of two in a number of bits -/
def digits58 (nbits : ℕ) : ℕ := (Nat.digits 58 (2 ^ (nbits - 1))).length

/-- The size of a bignum is recovered from base 58: its first six bits are not all zero; or its text
has a leading zero, and the power of the base with as many digits has no more than a bit above the
size; or it has none, and the seventh bit is set. -/
def Recovers58 (nbits v : ℕ) : Prop :=
  2 ^ (nbits - 6) ≤ v ∨
    v < 58 ^ (digits58 nbits - 1) ∧ 58 ^ digits58 nbits < 2 ^ (nbits + 1) ∨
    58 ^ (digits58 nbits - 1) ≤ v ∧ 2 ^ (nbits - 7) ≤ v

/-- The bignums that come back: of whole bytes, too large for an integer, storable, and with a size
that their text gives -/
def Recoverable (size : ℕ) (big : Big) : Prop :=
  8 ∣ big.nbits ∧ intMax < big.value ∧ Storable size big.value big.nbits ∧
    (big.nbits ≤ 64 ∨ 8192 < big.nbits ∨ Recovers58 big.nbits big.value)

end Specification

section Digits

variable {base : ℕ}

theorem digitLoop_spec (n val maxval : ℕ) (two : 2 ≤ base) (enough : maxval < 2 ^ n)
    (le : val ≤ maxval) :
    (digitLoop base n val maxval).length = (Nat.digits base maxval).length ∧
      (∀ d ∈ digitLoop base n val maxval, d < base) ∧
      Nat.ofDigits base (digitLoop base n val maxval) = val := by
  induction n generalizing val maxval with
  | zero =>
    obtain rfl : maxval = 0 := by omega
    obtain rfl : val = 0 := by omega
    simp [digitLoop]
  | succ n ih =>
    rw [digitLoop]
    split
    · next zero =>
      subst zero
      obtain rfl : val = 0 := by omega
      simp
    · next nonzero =>
      have half : maxval / base < 2 ^ n := by
        rw [pow_succ] at enough
        refine (Nat.div_le_div_left two (by decide)).trans_lt ?_
        omega
      obtain ⟨len, small, same⟩ := ih _ _ half (Nat.div_le_div_right le)
      refine ⟨?_, ?_, ?_⟩
      · rw [Nat.digits_def' (by omega) (by omega), List.length_cons, List.length_cons, len]
      · intro d inside
        obtain rfl | later := List.mem_cons.1 inside
        · exact Nat.mod_lt _ (by omega)
        · exact small d later
      · rw [Nat.ofDigits_cons, same]
        exact Nat.mod_add_div val base

theorem le_maxVal (i base nbits : ℕ) : i ≤ maxVal i base nbits := by
  unfold maxVal
  split
  · omega
  · split
    · dsimp only
      split
      · next wide =>
        have upper := Nat.lt_log2_self (n := i)
        exact (upper.trans_le (Nat.pow_le_pow_right (by decide) (by omega))).le
      · exact le_rfl
    · exact le_rfl

theorem bigDigits_spec (i base nbits : ℕ) (two : 2 ≤ base) :
    (bigDigits i base nbits).length = (Nat.digits base (maxVal i base nbits)).length ∧
      (∀ d ∈ bigDigits i base nbits, d < base) ∧
      Nat.ofDigits base (bigDigits i base nbits).reverse = i := by
  obtain ⟨len, small, same⟩ :=
    digitLoop_spec _ i (maxVal i base nbits) two Nat.lt_log2_self (le_maxVal i base nbits)
  rw [bigDigits, List.length_reverse, List.reverse_reverse]
  exact ⟨len, fun d inside => small d (List.mem_reverse.1 inside), same⟩

theorem first_zero_iff {digits : List ℕ} (first : ℕ) (two : 2 ≤ base)
    (small : ∀ d ∈ digits, d < base) :
    first = 0 ↔ Nat.ofDigits base (first :: digits).reverse < base ^ digits.length := by
  rw [List.reverse_cons, Nat.ofDigits_append, Nat.ofDigits_singleton, List.length_reverse]
  constructor
  · rintro rfl
    have below := Nat.ofDigits_lt_base_pow_length (l := digits.reverse) (by omega)
      fun d inside => small d (List.mem_reverse.1 inside)
    rw [List.length_reverse] at below
    omega
  · intro below
    by_contra nonzero
    have least : base ^ digits.length * 1 ≤ base ^ digits.length * first :=
      Nat.mul_le_mul_left _ (Nat.one_le_iff_ne_zero.2 nonzero)
    omega

end Digits

section Spelling

variable {base : ℕ} {spell : ℕ → UInt8} {digits : List ℕ}

/-- The characters of the digits below a base have their values in that base. -/
def Spells (base : ℕ) (spell : ℕ → UInt8) : Prop :=
  ∀ d < base, getBaseDigit (spell d) base = d ∧ isAlnum (spell d) = true

instance (base : ℕ) (spell : ℕ → UInt8) : Decidable (Spells base spell) :=
  inferInstanceAs (Decidable (∀ d < base, _))

theorem spells_10 : Spells 10 baseStd := by decide

theorem decimal_digits : ∀ d < 10, isDigit (baseStd d) = true := by decide

theorem spells_16 : Spells 16 baseStd := by decide

theorem spells_58 : Spells 58 base58 := by decide

theorem valid_spelled (spells : Spells base spell) (small : ∀ d ∈ digits, d < base) :
    ∀ ch ∈ digits.map spell, ValidDigit base ch := by
  intro ch inside
  obtain ⟨d, among, rfl⟩ := List.mem_map.1 inside
  have same := (spells d (small d among)).1
  exact ⟨by omega, by have := small d among; omega⟩

theorem value_spelled (spells : Spells base spell) (small : ∀ d ∈ digits, d < base) :
    value base (digits.map spell) = Nat.ofDigits base digits.reverse := by
  unfold value
  rw [← List.map_reverse, List.map_map]
  congr 1
  conv_rhs => rw [← List.map_id digits.reverse]
  refine List.map_congr_left fun d inside => ?_
  rw [Function.comp_apply, (spells d (small d (List.mem_reverse.1 inside))).1, Int.toNat_natCast,
    id]

theorem leadingZero_spelled (two : 2 ≤ base) (spells : Spells base spell)
    (small : ∀ d ∈ digits, d < base) (some_ : digits ≠ []) :
    LeadingZero base (digits.map spell) ↔
      Nat.ofDigits base digits.reverse < base ^ (digits.length - 1) := by
  obtain ⟨first, rest, rfl⟩ := List.exists_cons_of_ne_nil some_
  rw [List.length_cons, Nat.add_sub_cancel,
    ← first_zero_iff first two fun d inside => small d (List.mem_cons_of_mem _ inside)]
  have same := (spells first (small first List.mem_cons_self)).1
  simp [LeadingZero, same]

theorem readNumber_spelled {text : List UInt8} (two : 2 ≤ base) (spells : Spells base spell)
    (small : ∀ d ∈ digits, d < base) (some_ : digits ≠ [])
    (literal : NumberLiteral text base (digits.map spell)) {v : ℕ}
    (spelled : Nat.ofDigits base digits.reverse = v) :
    readNumber text = some (if v ≤ intMax then .int v
      else .big v (wholeBits (if v < base ^ (digits.length - 1) then Nat.log2 (base ^ digits.length)
        else Nat.log2 v))) := by
  have usable := usable_of_literal literal
  have valid := valid_spelled spells small
  have same : value base (digits.map spell) = v := (value_spelled spells small).trans spelled
  rw [readNumber_literal literal]
  split
  · next below =>
    rw [reduceDigits_small usable valid (by rwa [same]), same]
  · next above =>
    rw [reduceDigits_large usable valid (by rw [same]; exact not_le.1 above), literalBits, same,
      List.length_map]
    simp only [leadingZero_spelled two spells small some_, spelled]

theorem bigDigits_ne_nil (i base nbits : ℕ) (two : 2 ≤ base) : bigDigits i base nbits ≠ [] := by
  have len := (bigDigits_spec i base nbits two).1
  have positive : maxVal i base nbits ≠ 0 := by
    intro zero
    have below := le_maxVal i base nbits
    obtain rfl : i = 0 := by omega
    simp [maxVal] at zero
  intro empty
  rw [empty, List.length_nil] at len
  exact Nat.digits_ne_nil_iff_ne_zero.2 positive (List.length_eq_zero_iff.1 len.symm)

theorem bigToString_10 (i nbits : ℕ) :
    bigToString i 10 nbits = (bigDigits i 10 nbits).map baseStd := rfl

theorem bigToString_58 (i nbits : ℕ) :
    bigToString i 58 nbits = (bigDigits i 58 nbits).map base58 := rfl

/-- The digits of the bytes in base 16 -/
def hexDigits (bytes : List UInt8) : List ℕ :=
  bytes.flatMap fun byte => [byte.toNat / 16, byte.toNat % 16]

theorem big16ToString_eq (bytes : List UInt8) :
    big16ToString bytes = (hexDigits bytes).map baseStd := by
  rw [big16ToString, hexDigits, List.map_flatMap]
  rfl

theorem hexDigits_small (bytes : List UInt8) : ∀ d ∈ hexDigits bytes, d < 16 := by
  intro d inside
  obtain ⟨byte, _, among⟩ := List.mem_flatMap.1 inside
  have bound := byte.toNat_lt
  simp only [List.mem_cons, List.not_mem_nil, or_false] at among
  omega

theorem hexDigits_length (bytes : List UInt8) : (hexDigits bytes).length = 2 * bytes.length := by
  induction bytes with
  | nil => rfl
  | cons byte bytes ih =>
    rw [hexDigits, List.flatMap_cons, List.length_append]
    change 2 + (hexDigits bytes).length = 2 * (bytes.length + 1)
    omega

theorem importBits_cons (byte : UInt8) (bytes : List UInt8) :
    importBits (byte :: bytes) = importBits bytes + 256 ^ bytes.length * byte.toNat := by
  unfold importBits
  rw [List.reverse_cons, List.map_append, Nat.ofDigits_append, List.length_map,
    List.length_reverse, List.map_singleton, Nat.ofDigits_singleton]

theorem hexDigits_value (bytes : List UInt8) :
    Nat.ofDigits 16 (hexDigits bytes).reverse = importBits bytes := by
  induction bytes with
  | nil => rfl
  | cons byte bytes ih =>
    have byteDigits : Nat.ofDigits 16 [byte.toNat % 16, byte.toNat / 16] = byte.toNat := by
      rw [Nat.ofDigits_cons, Nat.ofDigits_singleton, Nat.mod_add_div]
    rw [importBits_cons, ← ih, hexDigits, List.flatMap_cons, List.reverse_append,
      Nat.ofDigits_append, List.length_reverse]
    change Nat.ofDigits 16 (hexDigits bytes).reverse +
      16 ^ (hexDigits bytes).length * Nat.ofDigits 16 [byte.toNat % 16, byte.toNat / 16] = _
    rw [byteDigits, hexDigits_length, pow_mul]
    rfl

end Spelling

section Recovery

variable {big : Big}

/-- The size that the parser gives to a number written with `len` digits of a base -/
def recoveredBits (base len v : ℕ) : ℕ :=
  wholeBits (if v < base ^ (len - 1) then Nat.log2 (base ^ len) else Nat.log2 v)

/-- The base and the number of digits of the text of a bignum -/
def textBase (nbits : ℕ) : ℕ := if nbits ≤ 64 then 10 else if 8192 < nbits then 16 else 58

def textLength (big : Big) : ℕ :=
  if 8192 < big.nbits then 2 * big.bytes.length
  else (Nat.digits (textBase big.nbits)
    (maxVal big.value (textBase big.nbits) big.nbits)).length

theorem readNumber_emitBig (big : Big) :
    readNumber (emitBig big) = some (if big.value ≤ intMax then .int big.value
      else .big big.value (recoveredBits (textBase big.nbits) (textLength big) big.value)) := by
  unfold recoveredBits textLength textBase emitBig
  by_cases short : big.nbits ≤ 64
  · obtain ⟨len, small, same⟩ :=
      bigDigits_spec big.value 10 big.nbits (by decide)
    have some_ := bigDigits_ne_nil big.value 10 big.nbits (by decide)
    simp only [if_pos short, if_neg (show ¬ 8192 < big.nbits by omega)]
    rw [bigToString_10, ← len]
    refine readNumber_spelled (by decide) spells_10 small some_ (.plain (by simpa using some_) ?_)
      same
    intro ch inside
    obtain ⟨d, among, rfl⟩ := List.mem_map.1 inside
    exact decimal_digits d (small d among)
  · by_cases long : 8192 < big.nbits
    · have some_ : hexDigits big.bytes ≠ [] := by
        have len := hexDigits_length big.bytes
        have whole := big.whole
        intro empty
        rw [empty, List.length_nil] at len
        omega
      simp only [if_neg short, if_pos long]
      rw [big16ToString_eq, ← hexDigits_length]
      refine readNumber_spelled (by decide) spells_16 (hexDigits_small _) some_
        (.based (by decide) (by simpa using some_) ?_) (hexDigits_value _)
      intro ch inside
      obtain ⟨d, among, rfl⟩ := List.mem_map.1 inside
      exact (spells_16 d (hexDigits_small _ d among)).2
    · obtain ⟨len, small, same⟩ :=
        bigDigits_spec big.value 58 big.nbits (by decide)
      have some_ := bigDigits_ne_nil big.value 58 big.nbits (by decide)
      simp only [if_neg short, if_neg long]
      rw [bigToString_58, ← len]
      refine readNumber_spelled (by decide) spells_58 small some_
        (.based (by decide) (by simpa using some_) ?_) same
      intro ch inside
      obtain ⟨d, among, rfl⟩ := List.mem_map.1 inside
      exact (spells_58 d (small d among)).2

theorem value_lt_pow_bytes (big : Big) : big.value < 2 ^ wholeBits big.nbits := by
  have below := importBits_lt big.bytes
  have bits : wholeBits big.nbits = 8 * big.bytes.length := by
    rw [big.whole, wholeBits, Nat.mul_comm]
  rw [bits, pow_mul]
  exact below

theorem roundTrips_iff_recovered (m : BigBytes.Memory) (big : Big) :
    RoundTrips m big ↔ intMax < big.value ∧
      recoveredBits (textBase big.nbits) (textLength big) big.value = big.nbits ∧
        Storable m.size big.value big.nbits := by
  unfold RoundTrips
  rw [readNumber_emitBig]
  by_cases small : (big.value : ℤ) ≤ intMax
  · rw [if_pos small]
    exact iff_of_false (fun ⟨read, _⟩ => by cases read) fun ⟨large, _⟩ => not_lt.2 small large
  · rw [if_neg small, and_iff_right (not_le.1 small), Option.some_inj, Parsed.big.injEq,
      and_iff_right rfl]
    refine and_congr_right fun recovered => stored_iff m ?_
    have whole : wholeBits big.nbits = big.nbits := by
      rw [← recovered]
      unfold recoveredBits wholeBits
      omega
    have below := value_lt_pow_bytes big
    rwa [whole] at below

theorem log2_bounds {v k n : ℕ} (least : 2 ^ k ≤ v) (most : v < 2 ^ n) :
    k ≤ Nat.log2 v ∧ Nat.log2 v < n := by
  have nonzero : v ≠ 0 := by
    have := Nat.two_pow_pos k
    omega
  exact ⟨(Nat.le_log2 nonzero).2 least, (Nat.log2_lt nonzero).2 most⟩

theorem large_value (large : intMax < big.value) : 2 ^ 60 ≤ big.value := by
  unfold intMax at large
  omega

theorem recoveredBits_own {base : ℕ} (two : 2 ≤ base) {v : ℕ} (positive : v ≠ 0) :
    recoveredBits base (Nat.digits base v).length v = wholeBits (Nat.log2 v) := by
  have some_ := List.length_pos_iff.2 (Nat.digits_ne_nil_iff_ne_zero (b := base).2 positive)
  have first := (Nat.lt_digits_length_iff (show 1 < base by omega) v).1
    (Nat.sub_lt some_ Nat.one_pos)
  rw [recoveredBits, if_neg (not_lt.2 first)]

theorem recovered_short (short : big.nbits ≤ 64) (large : intMax < big.value) :
    recoveredBits 10 (Nat.digits 10 (maxVal big.value 10 big.nbits)).length big.value =
      big.nbits ↔ 8 ∣ big.nbits := by
  have least := large_value large
  have most := value_lt_pow_bytes big
  have bits := log2_bounds least most
  have positive : big.value ≠ 0 := by omega
  have own : maxVal big.value 10 big.nbits = big.value := by
    rw [maxVal, if_neg positive, if_neg (by decide)]
  rw [own, recoveredBits_own (by decide) positive]
  unfold wholeBits at *
  omega

theorem recovered_long (large : intMax < big.value) :
    recoveredBits 16 (2 * big.bytes.length) big.value = big.nbits ↔ 8 ∣ big.nbits := by
  have most := value_lt_pow_bytes big
  have whole := big.whole
  have positive : big.value ≠ 0 := by
    have := large_value large
    omega
  have recovered : recoveredBits 16 (2 * big.bytes.length) big.value = 8 * big.bytes.length := by
    have power : 16 ^ (2 * big.bytes.length) = 2 ^ (8 * big.bytes.length) := by
      rw [pow_mul, pow_mul, show (16 ^ 2 : ℕ) = 2 ^ 8 from rfl]
    unfold recoveredBits
    split
    · rw [power, Nat.log2_two_pow, wholeBits]
      omega
    · next full =>
      have least : 2 ^ (4 * (2 * big.bytes.length - 1)) ≤ big.value := by
        rw [pow_mul]
        exact not_lt.1 full
      have bits := log2_bounds least most
      unfold wholeBits at *
      omega
  rw [recovered]
  omega

theorem digits58_bounds (nbits : ℕ) :
    0 < digits58 nbits ∧ 58 ^ (digits58 nbits - 1) ≤ 2 ^ (nbits - 1) ∧
      2 ^ (nbits - 1) < 58 ^ digits58 nbits := by
  have positive : 2 ^ (nbits - 1) ≠ 0 := (Nat.two_pow_pos _).ne'
  have some_ := List.length_pos_iff.2 (Nat.digits_ne_nil_iff_ne_zero (b := 58).2 positive)
  exact ⟨some_, (Nat.lt_digits_length_iff (by decide) _).1 (Nat.sub_lt some_ Nat.one_pos),
    Nat.lt_base_pow_length_digits (by decide)⟩

theorem recovered_middle (short : ¬ big.nbits ≤ 64) (large : intMax < big.value) :
    recoveredBits 58 (Nat.digits 58 (maxVal big.value 58 big.nbits)).length big.value =
      big.nbits ↔ 8 ∣ big.nbits ∧ Recovers58 big.nbits big.value := by
  by_cases bytes : 8 ∣ big.nbits
  swap
  · refine iff_of_false (fun same => bytes ?_) fun both => bytes both.1
    rw [← same]
    unfold recoveredBits wholeBits
    exact Dvd.intro_left _ rfl
  rw [and_iff_right bytes]
  have most := value_lt_pow_bytes big
  have least := large_value large
  have positive : big.value ≠ 0 := by omega
  have whole : wholeBits big.nbits = big.nbits := by
    unfold wholeBits
    omega
  rw [whole] at most
  by_cases full : 2 ^ (big.nbits - 6) ≤ big.value
  · have bits := log2_bounds full most
    have own : maxVal big.value 58 big.nbits = big.value := by
      rw [maxVal, if_neg positive, if_pos (Or.inr rfl)]
      exact if_neg (by omega)
    rw [own, recoveredBits_own (by decide) positive]
    refine iff_of_true ?_ (Or.inl full)
    unfold wholeBits
    omega
  · have bits := log2_bounds least (not_le.1 full)
    have padded : maxVal big.value 58 big.nbits = 2 ^ (big.nbits - 1) := by
      rw [maxVal, if_neg positive, if_pos (Or.inr rfl)]
      exact if_pos (by omega)
    obtain ⟨_, lower, upper⟩ := digits58_bounds big.nbits
    rw [padded]
    change recoveredBits 58 (digits58 big.nbits) big.value = _ ↔ _
    unfold recoveredBits Recovers58
    rw [or_iff_right full]
    split
    · next padding =>
      have top : big.nbits - 1 ≤ Nat.log2 (58 ^ digits58 big.nbits) :=
        (Nat.le_log2 (by positivity)).2 upper.le
      rw [and_iff_right padding, or_iff_left fun both => not_lt.2 both.1 padding,
        ← Nat.log2_lt (by positivity)]
      unfold wholeBits
      omega
    · next none =>
      rw [or_iff_right fun both => none both.1, and_iff_right (not_lt.1 none),
        ← Nat.le_log2 positive]
      unfold wholeBits
      omega

theorem recovered_iff (large : intMax < big.value) :
    recoveredBits (textBase big.nbits) (textLength big) big.value = big.nbits ↔
      8 ∣ big.nbits ∧
        (big.nbits ≤ 64 ∨ 8192 < big.nbits ∨ Recovers58 big.nbits big.value) := by
  unfold textLength textBase
  by_cases short : big.nbits ≤ 64
  · rw [if_pos short, if_neg (show ¬ 8192 < big.nbits by omega), recovered_short short large]
    exact (and_iff_left (Or.inl short)).symm
  · by_cases long : 8192 < big.nbits
    · rw [if_pos long, if_neg short, if_pos long, recovered_long large]
      exact (and_iff_left (Or.inr (Or.inl long))).symm
    · rw [if_neg long, if_neg short, if_neg long, recovered_middle short large,
        or_iff_right short, or_iff_right long]

/-- A bignum comes back with its value and its size exactly if it is recoverable. -/
theorem bigRoundTrips_iff (m : BigBytes.Memory) (big : Big) :
    RoundTrips m big ↔ Recoverable m.size big := by
  rw [roundTrips_iff_recovered]
  unfold Recoverable
  constructor
  · rintro ⟨large, recovered, storable⟩
    obtain ⟨bytes, regime⟩ := (recovered_iff large).1 recovered
    exact ⟨bytes, large, storable, regime⟩
  · rintro ⟨bytes, large, storable, regime⟩
    exact ⟨large, (recovered_iff large).2 ⟨bytes, regime⟩, storable⟩

/-- Nine bytes with ten leading zero bits, which base 58 writes with a leading zero -/
def padded72 : Big := ⟨72, [0, 32, 0, 0, 0, 0, 0, 0, 0], rfl⟩

/-- The text of the nine bytes is read as ten. -/
theorem nine_bytes_grow : ¬ ∀ (m : BigBytes.Memory) (big : Big), RoundTrips m big := by
  intro always
  have read := (always emptyHeap padded72).1
  have grown : readNumber (emitBig padded72) = some (.big (2 ^ 61) 80) := by decide
  rw [grown] at read
  cases read

end Recovery

end Epilog.Common.BigText
