/- Module: Epilog/Common/QuotedText
   source: src/src/common/term_tokenizer.cpp, src/src/common/token_chars.cpp,
     src/src/common/term_emitter.cpp (emit_atom_name)
   digest: Which texts survive quoting, and which escape sequences mean what is documented. -/

import Epilog.Common.Tokenizer
import Mathlib.Algebra.Group.Nat.Defs
import Mathlib.Data.Fintype.Basic

set_option autoImplicit false

namespace Epilog.Common.QuotedText

open Tokenizer

section Bytes

theorem forall_byte {P : UInt8 → Prop} (each : ∀ n : Fin 256, P (UInt8.ofNat n)) (b : UInt8) :
    P b := by
  have here := each ⟨b.toNat, b.toNat_lt⟩
  rwa [UInt8.ofNat_toNat] at here

/-- The bytes that come back: as they are, by their letter, or as a hexadecimal digit -/
def Plain (b : UInt8) : Prop :=
  b.toNat < 16 ∨ b = 27 ∨ 32 ≤ b.toNat ∧ b.toNat ≤ 127 ∧ b ≠ DOUBLE_QUOTE ∧ b ≠ BACKSLASH

instance (b : UInt8) : Decidable (Plain b) := inferInstanceAs (Decidable (_ ∨ _))

/-- What the tokenizer makes of an escaped byte: of two hexadecimal digits only the second counts -/
def decoded (b : UInt8) : UInt8 := if Plain b then b else UInt8.ofNat (b.toNat % 16)

theorem plain_of_unescaped : ∀ b : UInt8, escapeTail b = none → b ≠ BACKSLASH → Plain b :=
  forall_byte (by decide +kernel)

theorem plain_of_decoded : ∀ b : UInt8, escapeTail b ≠ none → decoded b = b → Plain b :=
  forall_byte (by decide +kernel)

theorem backslash_unescaped : escapeTail BACKSLASH = none := by decide

theorem quote_escaped (quote : Quote) : escapeTail quote.code ≠ none := by
  cases quote <;> decide

theorem space_of_layout :
    ∀ b : UInt8, escapeTail b = none → isLayoutChar b = true → b = 32 :=
  forall_byte (by decide +kernel)

theorem escape_shape : ∀ b : UInt8, ∀ tail ∈ escapeTail b,
    BACKSLASH ∉ tail ∧ tail ≠ [] ∧
      (b = APOSTROPHE ∧ tail = [APOSTROPHE] ∨
        b ≠ APOSTROPHE ∧ APOSTROPHE ∉ tail ∧ DOUBLE_QUOTE ∉ tail ∧ tail.head? ≠ some b) :=
  forall_byte (by decide +kernel)

end Bytes

section Rounds

variable {quote : Quote}

/-- The rounds of a quoted token that reads a lexeme from a text, with what it leaves -/
inductive Reads (quote : Quote) : List UInt8 → List UInt8 → List UInt8 → Prop
  | close {text rest : List UInt8} (ends : item quote text = .ok (none, rest)) :
      Reads quote text [] rest
  | more {text rest added lexeme rest' : List UInt8}
      (adds : item quote text = .ok (some added, rest)) (later : Reads quote rest lexeme rest') :
      Reads quote text (added ++ lexeme) rest'

theorem parseOctCode_length (n v : ℕ) (text : List UInt8) :
    (parseOctCode n v text).2.length ≤ text.length := by
  induction n generalizing v text with
  | zero => exact le_rfl
  | succ n ih =>
    cases text with
    | nil => exact le_rfl
    | cons ch rest =>
      rw [parseOctCode]
      split
      · exact (ih _ rest).trans (Nat.le_succ _)
      · exact Nat.le_succ _

theorem except_bind_ok {ε α β : Type} {x : Except ε α} {f : α → Except ε β} {r : β}
    (bound : x >>= f = .ok r) : ∃ a, x = .ok a ∧ f a = .ok r := by
  cases x with
  | error e => cases bound
  | ok a => exact ⟨a, rfl, bound⟩

theorem parseHexDigit_ok {text rest : List UInt8} {v : ℕ}
    (parsed : parseHexDigit text = .ok (v, rest)) :
    ∃ ch, text = ch :: rest ∧ hexValue ch = some v := by
  cases text with
  | nil => cases parsed
  | cons ch after =>
    rw [parseHexDigit] at parsed
    split at parsed
    · next value here =>
      cases parsed
      exact ⟨ch, rfl, here⟩
    · cases parsed

/-- The ways in which an escape sequence that starts with a character is read -/
inductive Escape (ch : UInt8) (rest : List UInt8) : List UInt8 → List UInt8 → Prop
  | letter {c : UInt8} (known : escapeLetters.lookup ch = some c) : Escape ch rest [c] rest
  | hex {h1 h2 : UInt8} {v1 v2 : ℕ} {after : List UInt8} (isX : ch = 'x'.toUInt8)
      (digits : rest = h1 :: h2 :: after) (first : hexValue h1 = some v1)
      (second : hexValue h2 = some v2) : Escape ch rest [UInt8.ofNat (v1 <<< 8 ||| v2)] after
  | skip (isC : ch = 'c'.toUInt8) : Escape ch rest [] (rest.dropWhile isLayoutChar)
  | delete {after : List UInt8} (isCaret : ch = '^'.toUInt8)
      (control : rest = '?'.toUInt8 :: after) : Escape ch rest [127] after
  | control {alpha : UInt8} {after : List UInt8} (isCaret : ch = '^'.toUInt8)
      (control : rest = alpha :: after)
      (isLetter : isCapitalLetter alpha = true ∨ isSmallLetter alpha = true) :
      Escape ch rest [UInt8.ofNat (alpha.toNat % 32)] after
  | octal (isOct : isOctDigit ch = true) :
      Escape ch rest [UInt8.ofNat (parseOctCode 3 0 rest).1] (parseOctCode 3 0 rest).2
  | layout (isLayout : isLayoutChar ch = true) : Escape ch rest [] rest
  | itself (noLetter : escapeLetters.lookup ch = none) (noX : ch ≠ 'x'.toUInt8)
      (noC : ch ≠ 'c'.toUInt8) (noCaret : ch ≠ '^'.toUInt8) (noOct : isOctDigit ch = false)
      (noLayout : isLayoutChar ch = false) : Escape ch rest [ch] rest

theorem escape_of_ok {text added rest' : List UInt8}
    (parsed : nextEscapeSequence text = .ok (added, rest')) :
    ∃ ch rest, text = ch :: rest ∧ Escape ch rest added rest' := by
  cases text with
  | nil => cases parsed
  | cons ch rest =>
    refine ⟨ch, rest, rfl, ?_⟩
    unfold nextEscapeSequence at parsed
    dsimp only at parsed
    split at parsed
    · next c known =>
      cases parsed
      exact Escape.letter known
    · next noLetter =>
      split at parsed
      · next isX =>
        obtain ⟨⟨v1, rest1⟩, first, parsed⟩ := except_bind_ok parsed
        obtain ⟨⟨v2, rest2⟩, second, parsed⟩ := except_bind_ok parsed
        cases parsed
        obtain ⟨h1, rfl, value1⟩ := parseHexDigit_ok first
        obtain ⟨h2, rfl, value2⟩ := parseHexDigit_ok second
        exact Escape.hex isX rfl value1 value2
      · next noX =>
        split at parsed
        · next isC =>
          cases parsed
          exact Escape.skip isC
        · next noC =>
          split at parsed
          · next isCaret =>
            split at parsed
            · cases parsed
            · next alpha after =>
              split at parsed
              · next isQuestion =>
                cases parsed
                exact Escape.delete isCaret (isQuestion ▸ rfl)
              · split at parsed
                · next capital =>
                  cases parsed
                  have same : (alpha.toNat - 65 + 1) % 32 = alpha.toNat % 32 := by
                    unfold isCapitalLetter at capital
                    rw [decide_eq_true_iff] at capital
                    omega
                  rw [same]
                  exact Escape.control isCaret rfl (Or.inl capital)
                · split at parsed
                  · next small =>
                    cases parsed
                    have same : (alpha.toNat - 97 + 1) % 32 = alpha.toNat % 32 := by
                      unfold isSmallLetter at small
                      rw [decide_eq_true_iff] at small
                      omega
                    rw [same]
                    exact Escape.control isCaret rfl (Or.inr small)
                  · cases parsed
          · next noCaret =>
            split at parsed
            · next isOct =>
              cases parsed
              exact Escape.octal isOct
            · next noOct =>
              split at parsed
              · next isLayout =>
                cases parsed
                exact Escape.layout isLayout
              · next noLayout =>
                cases parsed
                exact Escape.itself noLetter noX noC noCaret (Bool.eq_false_iff.2 noOct)
                  (Bool.eq_false_iff.2 noLayout)

theorem Escape.length {ch : UInt8} {rest added rest' : List UInt8}
    (escape : Escape ch rest added rest') : rest'.length ≤ rest.length := by
  cases escape with
  | letter _ => exact le_rfl
  | hex _ digits _ _ =>
    subst digits
    exact (Nat.le_succ _).trans (Nat.le_succ _)
  | skip _ => exact (List.dropWhile_suffix _).length_le
  | delete _ control =>
    subst control
    exact Nat.le_succ _
  | control _ control _ =>
    subst control
    exact Nat.le_succ _
  | octal _ => exact parseOctCode_length 3 0 rest
  | layout _ => exact le_rfl
  | itself _ _ _ _ _ _ => exact le_rfl

end Rounds

section Items

variable {quote : Quote} {rest : List UInt8}

theorem quote_ne_backslash (quote : Quote) : quote.code ≠ BACKSLASH := by
  cases quote <;> decide

theorem item_literal {ch : UInt8} (noQuote : ch ≠ quote.code) (noBackslash : ch ≠ BACKSLASH) :
    item quote (ch :: rest) = .ok (some [ch], rest) := by
  cases quote with
  | single => exact (if_neg noQuote).trans (if_pos noBackslash)
  | double => exact (if_neg noQuote).trans (if_neg noBackslash)

theorem item_backslash (quote : Quote) (rest : List UInt8) :
    item quote (BACKSLASH :: rest) =
      (nextEscapeSequence rest).map fun reading => (some reading.1, reading.2) := by
  cases quote with
  | single => rfl
  | double => rfl

theorem item_end (alone : rest.head? ≠ some quote.code) :
    item quote (quote.code :: rest) = .ok (none, rest) := by
  cases quote with
  | single =>
    change quotedNameItem (APOSTROPHE :: rest) = _
    rw [quotedNameItem, if_pos rfl]
    exact if_neg alone
  | double =>
    change stringItem (DOUBLE_QUOTE :: rest) = _
    rw [stringItem, if_pos rfl]
    exact if_neg alone

theorem item_single_twice (rest : List UInt8) :
    item .single (APOSTROPHE :: APOSTROPHE :: rest) =
      .ok (some [APOSTROPHE], APOSTROPHE :: rest) := rfl

theorem item_escape {text added rest' : List UInt8}
    (reads : item quote (BACKSLASH :: text) = .ok (some added, rest')) :
    ∃ ch rest, text = ch :: rest ∧ Escape ch rest added rest' := by
  rw [item_backslash] at reads
  cases parsed : nextEscapeSequence text with
  | error e =>
    rw [parsed] at reads
    cases reads
  | ok reading =>
    rw [parsed] at reads
    cases reads
    exact escape_of_ok parsed

theorem item_length {text rest' : List UInt8} {added : Option (List UInt8)}
    (reads : item quote text = .ok (added, rest')) : rest'.length < text.length := by
  cases text with
  | nil => cases quote <;> cases reads
  | cons ch rest =>
    rw [List.length_cons, Nat.lt_succ_iff]
    by_cases isQuote : ch = quote.code
    · subst isQuote
      by_cases twice : rest.head? = some quote.code
      · obtain ⟨after, rfl⟩ : ∃ after, rest = quote.code :: after := by
          cases rest with
          | nil => cases twice
          | cons second after => exact ⟨after, congrArg (· :: after) (Option.some.inj twice)⟩
        cases quote with
        | single =>
          cases reads
          exact le_rfl
        | double =>
          cases reads
          exact Nat.le_succ _
      · rw [item_end twice] at reads
        cases reads
        exact le_rfl
    · by_cases isBackslash : ch = BACKSLASH
      · subst isBackslash
        cases added with
        | none =>
          rw [item_backslash] at reads
          cases parsed : nextEscapeSequence rest <;> rw [parsed] at reads <;> cases reads
        | some added =>
          obtain ⟨ch, after, rfl, escape⟩ := item_escape reads
          exact escape.length.trans (Nat.le_succ _)
      · rw [item_literal isQuote isBackslash] at reads
        cases reads
        exact le_rfl

theorem quotedItems_iff {n : ℕ} {text lexeme rest' : List UInt8} (enough : text.length < n) :
    quotedItems quote n text = .ok (lexeme, rest') ↔ Reads quote text lexeme rest' := by
  constructor
  · intro reads
    clear enough
    induction n generalizing text lexeme rest' with
    | zero => cases reads
    | succ n ih =>
      rw [quotedItems] at reads
      obtain ⟨⟨added, rest⟩, here, reads⟩ := except_bind_ok reads
      cases added with
      | none =>
        cases reads
        exact Reads.close here
      | some added =>
        obtain ⟨⟨later, after⟩, again, reads⟩ := except_bind_ok reads
        cases reads
        exact Reads.more here (ih again)
  · intro reads
    induction reads generalizing n with
    | close ends =>
      obtain ⟨n, rfl⟩ : ∃ m, n = m + 1 := ⟨n - 1, by omega⟩
      rw [quotedItems, ends]
      rfl
    | more adds later ih =>
      obtain ⟨n, rfl⟩ : ∃ m, n = m + 1 := ⟨n - 1, by omega⟩
      have shorter := item_length adds
      rw [quotedItems, adds]
      change (quotedItems quote n _ >>= _) = _
      rw [ih (by omega)]
      rfl

theorem nextQuoted_iff {text lexeme rest' : List UInt8} :
    nextQuoted quote text = .ok (lexeme, rest') ↔ Reads quote text lexeme rest' :=
  quotedItems_iff (Nat.lt_succ_self _)

end Items

section Inversion

variable {quote : Quote}

/-- The text of a quoted token after the quote that opens it -/
def body (quote : Quote) (s : List UInt8) : List UInt8 := escapePretty s ++ [quote.code]

theorem body_escaped {b : UInt8} {tail : List UInt8} (escaped : escapeTail b = some tail)
    (s : List UInt8) : body quote (b :: s) = BACKSLASH :: (tail ++ body quote s) := by
  rw [body, escapePretty, List.flatMap_cons, escaped, body, escapePretty]
  simp

theorem body_literal {b : UInt8} (unescaped : escapeTail b = none) (s : List UInt8) :
    body quote (b :: s) = b :: body quote s := by
  rw [body, escapePretty, List.flatMap_cons, unescaped, body, escapePretty]
  simp

theorem body_ne_nil (s : List UInt8) : body quote s ≠ [] := by
  simp [body]

theorem literal_ne {b : UInt8} (unescaped : escapeTail b = none) : b ≠ quote.code := by
  rintro rfl
  exact quote_escaped quote unescaped

theorem body_eq_cons {s rest : List UInt8} {ch : UInt8} (starts : body quote s = ch :: rest)
    (noBackslash : ch ≠ BACKSLASH) (noQuote : ch ≠ quote.code) :
    ∃ s', s = ch :: s' ∧ escapeTail ch = none ∧ rest = body quote s' := by
  cases s with
  | nil =>
    cases starts
    exact absurd rfl noQuote
  | cons b s' =>
    cases escaped : escapeTail b with
    | some tail =>
      rw [body_escaped escaped] at starts
      cases starts
      exact absurd rfl noBackslash
    | none =>
      rw [body_literal escaped] at starts
      cases starts
      exact ⟨s', rfl, escaped, rfl⟩

theorem reads_ne_nil {lexeme rest : List UInt8} : ¬ Reads quote [] lexeme rest := by
  intro reads
  cases reads with
  | close ends => exact absurd (item_length ends) (Nat.not_lt_zero _)
  | more adds _ => exact absurd (item_length adds) (Nat.not_lt_zero _)

theorem reads_literal {ch : UInt8} {text lexeme rest : List UInt8} (noQuote : ch ≠ quote.code)
    (noBackslash : ch ≠ BACKSLASH) :
    Reads quote (ch :: text) lexeme rest ↔
      ∃ later, lexeme = ch :: later ∧ Reads quote text later rest := by
  have here : item quote (ch :: text) = .ok (some [ch], text) := item_literal noQuote noBackslash
  constructor
  · intro reads
    cases reads with
    | close ends =>
      rw [here] at ends
      cases ends
    | more adds later =>
      rw [here] at adds
      cases adds
      exact ⟨_, rfl, later⟩
  · rintro ⟨later, rfl, reads⟩
    exact Reads.more here reads

theorem reads_literals {chars text lexeme rest : List UInt8} (noQuote : quote.code ∉ chars)
    (noBackslash : BACKSLASH ∉ chars) :
    Reads quote (chars ++ text) lexeme rest ↔
      ∃ later, lexeme = chars ++ later ∧ Reads quote text later rest := by
  induction chars generalizing lexeme with
  | nil => exact ⟨fun reads => ⟨lexeme, rfl, reads⟩, fun ⟨_, same, reads⟩ => same ▸ reads⟩
  | cons ch chars ih =>
    rw [List.mem_cons, not_or] at noQuote noBackslash
    rw [List.cons_append, reads_literal (Ne.symm noQuote.1) (Ne.symm noBackslash.1)]
    constructor
    · rintro ⟨later, rfl, reads⟩
      obtain ⟨last, rfl, further⟩ := (ih noQuote.2 noBackslash.2).1 reads
      exact ⟨last, rfl, further⟩
    · rintro ⟨later, rfl, reads⟩
      exact ⟨chars ++ later, rfl, (ih noQuote.2 noBackslash.2).2 ⟨later, rfl, reads⟩⟩

theorem reads_tail {b : UInt8} {tail s lexeme : List UInt8} (escaped : escapeTail b = some tail)
    (reads : Reads quote (tail ++ body quote s) lexeme []) :
    ∃ later, lexeme = tail ++ later ∧ Reads quote (body quote s) later [] := by
  obtain ⟨noBackslash, _, apostrophe | ⟨_, noApostrophe, noDouble, _⟩⟩ :=
    escape_shape b tail escaped
  · obtain ⟨rfl, rfl⟩ := apostrophe
    cases quote with
    | double => exact (reads_literals (by decide) (by decide)).1 reads
    | single =>
      by_cases twice : (body .single s).head? = some APOSTROPHE
      · cases shape : body .single s with
        | nil => exact absurd shape (body_ne_nil s)
        | cons second after =>
          rw [shape] at reads twice
          cases Option.some.inj twice
          cases reads with
          | close ends => cases ends
          | more adds later =>
            rw [List.singleton_append, item_single_twice] at adds
            cases adds
            exact ⟨_, rfl, later⟩
      · have ends : item .single (APOSTROPHE :: body .single s) = .ok (none, body .single s) :=
          item_end twice
        rw [List.singleton_append] at reads
        cases reads with
        | close here =>
          rw [ends, Except.ok.injEq, Prod.mk.injEq] at here
          exact absurd here.2 (body_ne_nil s)
        | more adds _ =>
          rw [ends] at adds
          cases adds
  · refine (reads_literals ?_ noBackslash).1 reads
    cases quote with
    | single => exact noApostrophe
    | double => exact noDouble

end Inversion

section RoundTrip

variable {quote : Quote}

/-- One escape sequence of the text, from the characters of the source that it takes after its
backslash to what it adds: the escape of the next character loses its backslash (`split`), or less
is added than taken (`shorter`), or something else than a backslash comes first (`other`). -/
inductive Unit : List UInt8 → List UInt8 → Prop
  | split {b : UInt8} {tail : List UInt8} (escaped : escapeTail b = some tail) :
      Unit [b] (BACKSLASH :: tail)
  | shorter {taken added : List UInt8} (less : added.length ≤ taken.length)
      (one : added.length ≤ 1) : Unit taken added
  | other {taken added : List UInt8} {v : UInt8} (differs : v ≠ BACKSLASH)
      (noBackslash : BACKSLASH ∉ added) : Unit taken (v :: added)

theorem Unit.tail {taken added : List UInt8} (unit : Unit taken added) :
    BACKSLASH ∉ added.tail := by
  cases unit with
  | split escaped => exact (escape_shape _ _ escaped).1
  | shorter _ one =>
    have none : added.tail = [] := List.length_eq_zero_iff.1 (by rw [List.length_tail]; omega)
    rw [none]
    exact List.not_mem_nil
  | other _ noBackslash => exact noBackslash

theorem octal_unit {n k v v' : ℕ} {s rest lexeme : List UInt8} (small : v < 8 ^ k)
    (rounds : k + n ≤ 3) (parsed : parseOctCode n v (body quote s) = (v', rest))
    (reads : Reads quote rest lexeme []) :
    ∃ taken s' added later, s = taken ++ s' ∧ lexeme = added ++ later ∧
      Reads quote (body quote s') later [] ∧ BACKSLASH ∉ added ∧ (added = [] ∨ v' < 64) := by
  induction n generalizing k v s with
  | zero =>
    cases parsed
    exact ⟨[], s, [], lexeme, rfl, rfl, reads, List.not_mem_nil, Or.inl rfl⟩
  | succ n ih =>
    cases starts : body quote s with
    | nil => exact absurd starts (body_ne_nil s)
    | cons ch after =>
      rw [starts, parseOctCode] at parsed
      split at parsed
      · next isOct =>
        have bounds : 48 ≤ ch.toNat ∧ ch.toNat ≤ 55 := of_decide_eq_true isOct
        have noBackslash : ch ≠ BACKSLASH := by
          rintro rfl
          exact absurd isOct (by decide)
        have noQuote : ch ≠ quote.code := by
          rintro rfl
          revert isOct
          cases quote <;> decide
        obtain ⟨s', rfl, _, rfl⟩ := body_eq_cons starts noBackslash noQuote
        have digit : ch.toNat - 48 < 2 ^ 3 := by omega
        have next : v <<< 3 ||| (ch.toNat - 48) < 8 ^ (k + 1) := by
          rw [← Nat.shiftLeft_add_eq_or_of_lt digit, Nat.shiftLeft_eq, Nat.pow_succ]
          omega
        obtain ⟨taken, s'', added, later, rfl, same, further, free, short⟩ :=
          ih next (by omega) parsed
        exact ⟨ch :: taken, s'', added, later, rfl, same, further, free, short⟩
      · cases parsed
        have two : 8 ^ k ≤ 8 ^ 2 := Nat.pow_le_pow_right (by omega) (by omega)
        have bound : v' < 64 := lt_of_lt_of_le small two
        cases s with
        | nil =>
          cases starts
          exact absurd reads reads_ne_nil
        | cons b s' =>
          cases escaped : escapeTail b with
          | none =>
            rw [body_literal escaped, List.cons.injEq] at starts
            obtain ⟨rfl, rfl⟩ := starts
            exact ⟨[b], s', [], lexeme, rfl, rfl, reads, List.not_mem_nil, Or.inl rfl⟩
          | some tail =>
            rw [body_escaped escaped, List.cons.injEq] at starts
            obtain ⟨rfl, rfl⟩ := starts
            obtain ⟨later, rfl, further⟩ := reads_tail escaped reads
            exact ⟨[b], s', tail, later, rfl, rfl, further, (escape_shape b tail escaped).1,
              Or.inr bound⟩

theorem spaces_taken (s : List UInt8) :
    (body quote s).dropWhile isLayoutChar = body quote (s.dropWhile (· = 32)) := by
  induction s with
  | nil => cases quote <;> rfl
  | cons b s ih =>
    cases escaped : escapeTail b with
    | some tail =>
      have noSpace : b ≠ 32 := by
        rintro rfl
        cases escaped
      rw [List.dropWhile_cons, if_neg (by simpa using noSpace), body_escaped escaped]
      rfl
    | none =>
      rw [body_literal escaped, List.dropWhile_cons, List.dropWhile_cons]
      by_cases space : b = 32
      · subst space
        rw [if_pos (by decide), if_pos (by decide), ih]
      · have noLayout : isLayoutChar b ≠ true := fun layout =>
          space (space_of_layout b escaped layout)
        rw [if_neg noLayout, if_neg (by simpa using space), body_literal escaped]

theorem hexValue_quote (quote : Quote) : hexValue quote.code = none := by
  cases quote <;> rfl

variable (quote) in
theorem ne_of_hexValue {h : UInt8} {v : ℕ} (value : hexValue h = some v) :
    h ≠ BACKSLASH ∧ h ≠ quote.code := by
  refine ⟨?_, ?_⟩
  · rintro rfl
    cases value
  · rintro rfl
    rw [hexValue_quote] at value
    cases value

variable (quote) in
theorem ne_of_letter {alpha : UInt8}
    (isLetter : isCapitalLetter alpha = true ∨ isSmallLetter alpha = true) :
    alpha ≠ BACKSLASH ∧ alpha ≠ quote.code := by
  refine ⟨?_, ?_⟩
  · rintro rfl
    revert isLetter
    decide
  · rintro rfl
    revert isLetter
    cases quote <;> decide

theorem backslash_unit {s added rest later : List UInt8}
    (adds : item quote (BACKSLASH :: body quote s) = .ok (some added, rest))
    (reads : Reads quote rest later []) :
    ∃ taken s' out later', s = taken ++ s' ∧ added ++ later = out ++ later' ∧
      Reads quote (body quote s') later' [] ∧ Unit taken out := by
  obtain ⟨ch, after, starts, escape⟩ := item_escape adds
  cases s with
  | nil =>
    -- the closing quote is taken for an escaped character, and the text ends
    cases starts
    have shorter := escape.length
    rw [List.length_nil, Nat.le_zero, List.length_eq_zero_iff] at shorter
    subst shorter
    exact absurd reads reads_ne_nil
  | cons b s =>
    cases escaped : escapeTail b with
    | some tail =>
      rw [body_escaped escaped, List.cons.injEq] at starts
      obtain ⟨rfl, rfl⟩ := starts
      have itself : added = [BACKSLASH] ∧ rest = tail ++ body quote s := by
        rw [item_backslash, body_escaped escaped] at adds
        cases adds
        exact ⟨rfl, rfl⟩
      obtain ⟨rfl, rfl⟩ := itself
      obtain ⟨later', rfl, further⟩ := reads_tail escaped reads
      exact ⟨[b], s, BACKSLASH :: tail, later', rfl, rfl, further, Unit.split escaped⟩
    | none =>
      rw [body_literal escaped, List.cons.injEq] at starts
      obtain ⟨rfl, rfl⟩ := starts
      cases escape with
      | @letter c known => exact ⟨[b], s, [c], later, rfl, rfl, reads, Unit.shorter le_rfl le_rfl⟩
      | @hex h1 h2 v1 v2 _ isX digits first second =>
        obtain ⟨noBackslash1, noQuote1⟩ := ne_of_hexValue quote first
        obtain ⟨noBackslash2, noQuote2⟩ := ne_of_hexValue quote second
        obtain ⟨s1, rfl, _, digits2⟩ := body_eq_cons digits noBackslash1 noQuote1
        obtain ⟨s2, rfl, _, rfl⟩ := body_eq_cons digits2.symm noBackslash2 noQuote2
        exact ⟨[b, h1, h2], s2, _, later, rfl, rfl, reads, Unit.shorter (by simp) le_rfl⟩
      | skip isC =>
        rw [spaces_taken] at reads
        refine ⟨b :: s.takeWhile (· = 32), s.dropWhile (· = 32), [], later, ?_, rfl, reads,
          Unit.shorter (Nat.zero_le _) (Nat.zero_le _)⟩
        rw [List.cons_append, List.takeWhile_append_dropWhile]
      | delete isCaret control =>
        have noQuote : '?'.toUInt8 ≠ quote.code := by cases quote <;> decide
        obtain ⟨s1, rfl, _, rfl⟩ := body_eq_cons control (by decide) noQuote
        exact ⟨[b, _], s1, _, later, rfl, rfl, reads, Unit.shorter (by simp) le_rfl⟩
      | @control alpha _ isCaret control isLetter =>
        obtain ⟨noBackslash, noQuote⟩ := ne_of_letter quote isLetter
        obtain ⟨s1, rfl, _, rfl⟩ := body_eq_cons control noBackslash noQuote
        exact ⟨[b, alpha], s1, _, later, rfl, rfl, reads, Unit.shorter (by simp) le_rfl⟩
      | octal isOct =>
        obtain ⟨taken, s', out, later', rfl, rfl, further, free, short⟩ :=
          octal_unit (k := 0) (v := 0) (by decide) le_rfl rfl reads
        refine ⟨b :: taken, s', _ :: out, later', rfl, rfl, further, ?_⟩
        obtain rfl | small := short
        · exact Unit.shorter (by simp) le_rfl
        · refine Unit.other ?_ free
          intro isBackslash
          have value := congrArg UInt8.toNat isBackslash
          rw [UInt8.toNat_ofNat', Nat.mod_eq_of_lt (by omega)] at value
          change _ = 92 at value
          omega
      | layout isLayout =>
        exact ⟨[b], s, [], later, rfl, rfl, reads, Unit.shorter (Nat.zero_le _) (Nat.zero_le _)⟩
      | itself _ _ _ _ _ _ =>
        exact ⟨[b], s, [b], later, rfl, rfl, reads, Unit.shorter le_rfl le_rfl⟩

theorem escapeLetters_of_prettyLetters : ∀ b : UInt8, ∀ letter ∈ prettyLetters.lookup b,
    escapeLetters.lookup letter.toUInt8 = some b ∧ Plain b := by
  have table : ∀ b : UInt8, (prettyLetters.lookup b).all (fun letter =>
      decide (escapeLetters.lookup letter.toUInt8 = some b ∧ Plain b)) = true :=
    forall_byte (by decide +kernel)
  intro b letter isLetter
  have entry := table b
  rw [Option.mem_def.mp isLetter] at entry
  exact of_decide_eq_true entry

theorem hexValue_hexDigit :
    ∀ n : Fin 16, hexValue (hexDigit n) = some n.val := by decide

theorem parse_hexDigit {n : ℕ} (digit : n < 16) (text : List UInt8) :
    parseHexDigit (hexDigit n :: text) = .ok (n, text) := by
  rw [parseHexDigit, hexValue_hexDigit ⟨n, digit⟩]

theorem hex_decoded : ∀ b : UInt8, prettyLetters.lookup b = none → b ≠ 32 → b ≠ APOSTROPHE →
    127 ≤ b.toNat ∨ shouldBeEscaped b = true →
    UInt8.ofNat ((b.toNat / 16) <<< 8 ||| b.toNat % 16) = decoded b :=
  forall_byte (by decide +kernel)

theorem nextEscapeSequence_tail {b : UInt8} {tail : List UInt8}
    (escaped : escapeTail b = some tail) (text : List UInt8) :
    nextEscapeSequence (tail ++ text) = .ok ([decoded b], text) := by
  unfold escapeTail at escaped
  split at escaped
  · next letter isLetter =>
    cases escaped
    obtain ⟨known, plain⟩ := escapeLetters_of_prettyLetters b letter isLetter
    unfold nextEscapeSequence
    rw [decoded, if_pos plain]
    simp only [List.singleton_append, known]
  · next noLetter =>
    split at escaped
    · cases escaped
    · next noSpace =>
      split at escaped
      · next isApostrophe =>
        cases escaped
        subst isApostrophe
        rfl
      · next noApostrophe =>
        split at escaped
        · next high =>
          cases escaped
          have first : b.toNat / 16 < 16 := by
            have := b.toNat_lt
            omega
          have second : b.toNat % 16 < 16 := Nat.mod_lt _ (by decide)
          rw [← hex_decoded b noLetter noSpace noApostrophe high]
          change (parseHexDigit (hexDigit (b.toNat / 16) :: hexDigit (b.toNat % 16) :: text) >>=
            fun p => parseHexDigit p.2 >>= fun q =>
              Except.ok ([UInt8.ofNat (p.1 <<< 8 ||| q.1)], q.2)) = _
          rw [parse_hexDigit first]
          change (parseHexDigit (hexDigit (b.toNat % 16) :: text) >>= fun q =>
            Except.ok ([UInt8.ofNat ((b.toNat / 16) <<< 8 ||| q.1)], q.2)) = _
          rw [parse_hexDigit second]
          rfl
        · cases escaped

theorem item_escaped {b : UInt8} {tail : List UInt8} (escaped : escapeTail b = some tail)
    (text : List UInt8) :
    item quote (BACKSLASH :: (tail ++ text)) = .ok (some [decoded b], text) := by
  rw [item_backslash, nextEscapeSequence_tail escaped]
  rfl

theorem reads_escaped {b : UInt8} {tail text lexeme rest : List UInt8}
    (escaped : escapeTail b = some tail) :
    Reads quote (BACKSLASH :: (tail ++ text)) lexeme rest ↔
      ∃ later, lexeme = decoded b :: later ∧ Reads quote text later rest := by
  have here : item quote (BACKSLASH :: (tail ++ text)) = .ok (some [decoded b], text) :=
    item_escaped escaped text
  constructor
  · intro reads
    cases reads with
    | close ends =>
      rw [here] at ends
      cases ends
    | more adds later =>
      rw [here] at adds
      cases adds
      exact ⟨_, rfl, later⟩
  · rintro ⟨later, rfl, reads⟩
    exact Reads.more here reads

theorem reads_backslash {s lexeme : List UInt8}
    (reads : Reads quote (BACKSLASH :: body quote s) lexeme []) :
    ∃ taken s' out later, s = taken ++ s' ∧ lexeme = out ++ later ∧
      Reads quote (body quote s') later [] ∧ Unit taken out := by
  cases reads with
  | close ends =>
    rw [item_backslash] at ends
    cases parsed : nextEscapeSequence (body quote s) <;> rw [parsed] at ends <;> cases ends
  | more adds later => exact backslash_unit adds later

theorem not_behind (n : ℕ) : ∀ s owed : List UInt8, s.length ≤ n → owed ≠ [] →
    ¬ Reads quote (body quote s) (owed ++ s) [] := by
  induction n with
  | zero =>
    rintro s owed short debt reads
    obtain rfl := List.length_eq_zero_iff.1 (Nat.le_zero.1 short)
    have ends : item quote (body quote []) = .ok (none, []) :=
      item_end (fun none => by cases none)
    rw [List.append_nil] at reads
    cases reads with
    | close _ => exact debt rfl
    | more adds _ =>
      rw [ends] at adds
      cases adds
  | succ n ih =>
    rintro s owed short debt reads
    obtain _ | ⟨first, owed⟩ := owed
    · exact absurd rfl debt
    cases s with
    | nil => exact ih [] (first :: owed) (Nat.zero_le _) debt reads
    | cons b s =>
      have less : s.length ≤ n := Nat.le_of_succ_le_succ short
      -- one character for one: the debt moves on
      have moved : ∀ c later, first :: owed ++ b :: s = c :: later →
          ¬ Reads quote (body quote s) later [] := by
        rintro c later same further
        rw [List.cons_append, List.cons.injEq] at same
        obtain ⟨_, rfl⟩ := same
        refine ih s (owed ++ [b]) less (by simp) ?_
        rwa [List.append_assoc, List.singleton_append]
      cases escaped : escapeTail b with
      | some tail =>
        rw [body_escaped escaped] at reads
        obtain ⟨later, same, further⟩ := (reads_escaped escaped).1 reads
        exact moved _ later same further
      | none =>
        rw [body_literal escaped] at reads
        by_cases isBackslash : b = BACKSLASH
        · subst isBackslash
          obtain ⟨taken, s', out, later, rfl, same, further, unit⟩ := reads_backslash reads
          have shorter : s'.length ≤ n := by
            rw [List.length_append] at less
            omega
          obtain ⟨extra, paid, left⟩ | ⟨extra, _, left⟩ := List.append_eq_append_iff.1 same
          · cases extra with
            | nil =>
              refine ih s' (BACKSLASH :: taken) shorter (List.cons_ne_nil _ _) ?_
              rw [List.nil_append] at left
              rwa [List.cons_append, left]
            | cons c extra =>
              -- the unit adds more than is owed, the backslash of the text among it
              rw [List.cons_append, List.cons.injEq] at left
              obtain ⟨rfl, _⟩ := left
              refine unit.tail ?_
              rw [paid, List.cons_append, List.tail_cons]
              exact List.mem_append_right _ List.mem_cons_self
          · refine ih s' (extra ++ BACKSLASH :: taken) shorter (by simp) ?_
            rwa [List.append_assoc, List.cons_append, ← left]
        · obtain ⟨later, same, further⟩ := (reads_literal (literal_ne escaped) isBackslash).1 reads
          exact moved _ later same further

end RoundTrip

section Survival

variable {quote : Quote}

/-- The texts that come back from their quoted form: bytes that come back on their own, and pairs
of a backslash and an apostrophe, between apostrophes only at the end -/
inductive Survives (quote : Quote) : List UInt8 → Prop
  | nil : Survives quote []
  | plain {b : UInt8} {s : List UInt8} (itself : Plain b) (later : Survives quote s) :
      Survives quote (b :: s)
  | pair {s : List UInt8} (atEnd : quote = .single → s = []) (later : Survives quote s) :
      Survives quote (BACKSLASH :: APOSTROPHE :: s)

theorem reads_end (quote : Quote) : Reads quote (body quote []) [] [] :=
  Reads.close (item_end fun none => by cases none)

theorem decoded_of_plain {b : UInt8} (plain : Plain b) : decoded b = b := if_pos plain

theorem reads_of_survives {s : List UInt8} (survives : Survives quote s) :
    Reads quote (body quote s) s [] := by
  induction survives with
  | nil => exact reads_end quote
  | @plain b s itself _ ih =>
    cases escaped : escapeTail b with
    | some tail =>
      rw [body_escaped escaped, reads_escaped escaped, decoded_of_plain itself]
      exact ⟨s, rfl, ih⟩
    | none =>
      have noBackslash : b ≠ BACKSLASH := by
        rintro rfl
        revert itself
        decide
      rw [body_literal escaped, reads_literal (literal_ne escaped) noBackslash]
      exact ⟨s, rfl, ih⟩
  | @pair s atEnd _ ih =>
    have escaped : escapeTail APOSTROPHE = some [APOSTROPHE] := by decide
    have pairRead : item quote (body quote (BACKSLASH :: APOSTROPHE :: s)) =
        .ok (some [BACKSLASH], APOSTROPHE :: body quote s) := by
      rw [body_literal backslash_unescaped, body_escaped escaped, item_backslash]
      rfl
    refine Reads.more pairRead ?_
    cases quote with
    | double =>
      rw [reads_literal (by decide) (by decide)]
      exact ⟨s, rfl, ih⟩
    | single =>
      obtain rfl := atEnd rfl
      exact Reads.more (item_single_twice []) ih

theorem apostrophe_last {s lexeme : List UInt8}
    (reads : Reads .single (BACKSLASH :: body .single (APOSTROPHE :: s)) lexeme []) : s = [] := by
  have escaped : escapeTail APOSTROPHE = some [APOSTROPHE] := by decide
  have first : item .single (BACKSLASH :: body .single (APOSTROPHE :: s)) =
      .ok (some [BACKSLASH], APOSTROPHE :: body .single s) := by
    rw [body_escaped escaped, item_backslash]
    rfl
  cases reads with
  | close ends =>
    rw [first] at ends
    cases ends
  | more adds later =>
    rw [first] at adds
    cases adds
    obtain _ | ⟨b, s⟩ := s
    · rfl
    have other : (body .single (b :: s)).head? ≠ some Quote.single.code := by
      cases escaped : escapeTail b with
      | some tail =>
        rw [body_escaped escaped]
        exact fun same => quote_ne_backslash .single (Option.some.inj same).symm
      | none =>
        rw [body_literal escaped]
        exact fun same => literal_ne escaped (Option.some.inj same)
    have ends : item .single (APOSTROPHE :: body .single (b :: s)) =
        .ok (none, body .single (b :: s)) := item_end other
    cases later with
    | close here =>
      rw [ends, Except.ok.injEq, Prod.mk.injEq] at here
      exact absurd here.2 (body_ne_nil (b :: s))
    | more adds _ =>
      rw [ends] at adds
      cases adds

theorem survives_of_reads (n : ℕ) :
    ∀ s : List UInt8, s.length ≤ n → Reads quote (body quote s) s [] → Survives quote s := by
  induction n with
  | zero =>
    rintro s short _
    obtain rfl := List.length_eq_zero_iff.1 (Nat.le_zero.1 short)
    exact Survives.nil
  | succ n ih =>
    rintro s short reads
    obtain _ | ⟨b, s⟩ := s
    · exact Survives.nil
    have less : s.length ≤ n := Nat.le_of_succ_le_succ short
    cases escaped : escapeTail b with
    | some tail =>
      rw [body_escaped escaped, reads_escaped escaped] at reads
      obtain ⟨later, same, further⟩ := reads
      rw [List.cons.injEq] at same
      obtain ⟨itself, rfl⟩ := same
      have plain := plain_of_decoded b (by rw [escaped]; exact Option.some_ne_none tail) itself.symm
      exact Survives.plain plain (ih s less further)
    | none =>
      rw [body_literal escaped] at reads
      by_cases isBackslash : b = BACKSLASH
      · subst isBackslash
        obtain ⟨taken, s', out, later, rfl, same, further, unit⟩ := reads_backslash reads
        rw [List.length_append] at less
        cases unit with
        | @split c tail escapedC =>
          obtain ⟨_, some_, apostrophe | ⟨_, _, _, differs⟩⟩ := escape_shape c tail escapedC
          · obtain ⟨rfl, rfl⟩ := apostrophe
            obtain rfl : s' = later := by simpa using same
            refine Survives.pair ?_ (ih s' (by omega) further)
            rintro rfl
            exact apostrophe_last reads
          · obtain _ | ⟨c', tail⟩ := tail
            · exact absurd rfl some_
            · simp only [List.cons_append, List.cons.injEq] at same
              exact absurd (congrArg some same.2.1.symm) differs
        | shorter smaller one =>
          exfalso
          obtain _ | ⟨c, _ | ⟨c', out⟩⟩ := out
          · rw [List.nil_append] at same
            subst same
            exact not_behind s'.length s' (BACKSLASH :: taken) le_rfl (List.cons_ne_nil _ _) further
          · rw [List.singleton_append, List.cons.injEq] at same
            obtain ⟨_, rfl⟩ := same
            have some_ : taken ≠ [] := List.length_pos_iff.1 smaller
            exact not_behind s'.length s' taken le_rfl some_ further
          · exact absurd one (by simp)
        | other differs _ =>
          rw [List.cons_append, List.cons.injEq] at same
          exact absurd same.1.symm differs
      · obtain ⟨later, same, further⟩ := (reads_literal (literal_ne escaped) isBackslash).1 reads
        rw [List.cons.injEq] at same
        obtain ⟨_, rfl⟩ := same
        exact Survives.plain (plain_of_unescaped b escaped isBackslash) (ih s less further)

end Survival

section Documented

/-- The octal digits of an escape sequence, of which there are three at most -/
def octalDigits (text : List UInt8) : List UInt8 := (text.take 3).takeWhile isOctDigit

def octalValue (digits : List UInt8) : ℕ := digits.foldl (fun v ch => 8 * v + (ch.toNat - 48)) 0

/-- `escape-sequence` of the grammar above the tokenizer: what it stands for, and what follows it.
A character code is a byte. -/
def documentedEscape : List UInt8 → Option (List UInt8 × List UInt8)
  | [] => none
  | ch :: rest =>
    match escapeLetters.lookup ch with
    | some c => some ([c], rest)
    | none =>
      if ch = 'x'.toUInt8 then
        match rest with
        | alpha1 :: alpha2 :: rest => do
          let high ← hexValue alpha1
          let low ← hexValue alpha2
          some ([UInt8.ofNat (16 * high + low)], rest)
        | _ => none
      else if isOctDigit ch then
        let digits := octalDigits (ch :: rest)
        some ([UInt8.ofNat (octalValue digits)], (ch :: rest).drop digits.length)
      else if ch = '^'.toUInt8 then
        match rest with
        | [] => none
        | alpha :: rest =>
          if alpha = '?'.toUInt8 then some ([127], rest)
          else if isCapitalLetter alpha || isSmallLetter alpha then
            some ([UInt8.ofNat (alpha.toNat % 32)], rest)
          else none
      else if ch = 'c'.toUInt8 then some ([], rest.dropWhile isLayoutChar)
      else if isLayoutChar ch then some ([], rest)
      else some ([ch], rest)

/-- `quoted-item` and `string-item` of the grammar -/
def documentedItem (quote : Quote) : List UInt8 → Option (List UInt8 × List UInt8)
  | [] => none
  | ch :: rest =>
    if ch = quote.code then
      if rest.head? = some quote.code then some ([quote.code], rest.tail) else none
    else if ch = BACKSLASH then documentedEscape rest
    else some ([ch], rest)

/-- An item that the tokenizer accepts at the head of a text stands for what is documented, and
takes its own characters. -/
def AsDocumented (quote : Quote) (text : List UInt8) : Prop :=
  ∀ added rest, item quote text = .ok (some added, rest) →
    documentedItem quote text = some (added, rest)

/-- The octal sequences that are read as documented: at the end of the text, with a first digit
that does not count -/
def OctalReads (ch : UInt8) (rest : List UInt8) : Prop :=
  rest.length ≤ 2 ∧ rest.all isOctDigit = true ∧
    (ch = '0'.toUInt8 ∨ ch = '4'.toUInt8 ∧ rest.length = 2)

/-- The texts at whose head no item is misread: no doubled apostrophe between apostrophes, no
hexadecimal code from 16 on, and no octal code that goes wrong -/
structure Regular (quote : Quote) (text : List UInt8) : Prop where
  doubled : ∀ rest, quote = .single → text ≠ APOSTROPHE :: APOSTROPHE :: rest
  hex : ∀ h1 h2 v1 v2 rest, text = BACKSLASH :: 'x'.toUInt8 :: h1 :: h2 :: rest →
    hexValue h1 = some v1 → hexValue h2 = some v2 → v1 = 0
  octal : ∀ ch rest, text = BACKSLASH :: ch :: rest → isOctDigit ch = true → OctalReads ch rest

theorem octal_byte {ch : UInt8} (isOct : isOctDigit ch = true) :
    ∃ i : Fin 8, ch = UInt8.ofNat (48 + i) := by
  have bounds : 48 ≤ ch.toNat ∧ ch.toNat ≤ 55 := of_decide_eq_true isOct
  refine ⟨⟨ch.toNat - 48, by omega⟩, ?_⟩
  change ch = UInt8.ofNat (48 + (ch.toNat - 48))
  rw [Nat.add_sub_cancel' bounds.1, UInt8.ofNat_toNat]

theorem octal_only : ∀ ch : UInt8, isOctDigit ch = true → escapeLetters.lookup ch = none ∧
    ch ≠ 'x'.toUInt8 ∧ ch ≠ 'c'.toUInt8 ∧ ch ≠ '^'.toUInt8 :=
  forall_byte (by decide +kernel)

theorem layout_only : ∀ ch : UInt8, isLayoutChar ch = true → escapeLetters.lookup ch = none ∧
    ch ≠ 'x'.toUInt8 ∧ ch ≠ 'c'.toUInt8 ∧ ch ≠ '^'.toUInt8 ∧ isOctDigit ch = false :=
  forall_byte (by decide +kernel)

theorem alpha_only : ∀ alpha : UInt8, isCapitalLetter alpha = true ∨ isSmallLetter alpha = true →
    alpha ≠ '?'.toUInt8 := forall_byte (by decide +kernel)

theorem hexValue_lt : ∀ h : UInt8, ∀ v ∈ hexValue h, v < 16 := forall_byte (by decide +kernel)

theorem documentedEscape_octal {ch : UInt8} (isOct : isOctDigit ch = true) (rest : List UInt8) :
    documentedEscape (ch :: rest) =
      some ([UInt8.ofNat (octalValue (octalDigits (ch :: rest)))],
        (ch :: rest).drop (octalDigits (ch :: rest)).length) := by
  obtain ⟨noLetter, noX, _, _⟩ := octal_only ch isOct
  unfold documentedEscape
  simp only [noLetter, if_neg noX, if_pos isOct]

theorem octalDigits_cons {ch : UInt8} (isOct : isOctDigit ch = true) (rest : List UInt8) :
    octalDigits (ch :: rest) = ch :: (rest.take 2).takeWhile isOctDigit := by
  rw [octalDigits, List.take_succ_cons, List.takeWhile_cons_of_pos isOct]

theorem octal_agrees_iff {ch : UInt8} (isOct : isOctDigit ch = true) (rest : List UInt8) :
    documentedEscape (ch :: rest) =
        some ([UInt8.ofNat (parseOctCode 3 0 rest).1], (parseOctCode 3 0 rest).2) ↔
      OctalReads ch rest := by
  rw [documentedEscape_octal isOct, octalDigits_cons isOct, Option.some_inj, Prod.mk.injEq,
    List.cons.injEq]
  unfold OctalReads
  obtain _ | ⟨a, rest⟩ := rest
  · obtain ⟨i, rfl⟩ := octal_byte isOct
    revert i
    decide
  by_cases octA : isOctDigit a = true
  swap
  · simp [parseOctCode, octA]
  obtain _ | ⟨b, rest⟩ := rest
  · obtain ⟨i, rfl⟩ := octal_byte isOct
    obtain ⟨j, rfl⟩ := octal_byte octA
    revert i j
    decide
  by_cases octB : isOctDigit b = true
  swap
  · simp [parseOctCode, octA, octB]
  obtain _ | ⟨c, rest⟩ := rest
  · obtain ⟨i, rfl⟩ := octal_byte isOct
    obtain ⟨j, rfl⟩ := octal_byte octA
    obtain ⟨k, rfl⟩ := octal_byte octB
    revert i j k
    decide
  by_cases octC : isOctDigit c = true
  · simp [parseOctCode, octA, octB, octC]
  · simp [parseOctCode, octA, octB, octC]

theorem documentedEscape_of_escape {ch : UInt8} {rest added rest' : List UInt8}
    (escape : Escape ch rest added rest')
    (hex : ∀ h1 h2 v1 v2 after, ch = 'x'.toUInt8 → rest = h1 :: h2 :: after →
      hexValue h1 = some v1 → hexValue h2 = some v2 → v1 = 0)
    (octal : isOctDigit ch = true → OctalReads ch rest) :
    documentedEscape (ch :: rest) = some (added, rest') := by
  cases escape with
  | letter known =>
    unfold documentedEscape
    simp only [known]
  | @hex h1 h2 v1 v2 after isX digits first second =>
    obtain rfl := hex h1 h2 v1 v2 rest' isX digits first second
    subst isX digits
    have low : 0 <<< 8 ||| v2 = 16 * 0 + v2 := by simp
    change (do
      let high ← hexValue h1
      let low ← hexValue h2
      some ([UInt8.ofNat (16 * high + low)], rest')) = _
    rw [first, second, low]
    rfl
  | skip isC =>
    subst isC
    rfl
  | delete isCaret control =>
    subst isCaret control
    rfl
  | @control alpha after isCaret control isLetter =>
    subst isCaret control
    change (if alpha = '?'.toUInt8 then _ else _) = _
    rw [if_neg (alpha_only alpha isLetter), if_pos (Bool.or_eq_true_iff.2 isLetter)]
  | octal isOct => exact (octal_agrees_iff isOct rest).2 (octal isOct)
  | layout isLayout =>
    obtain ⟨noLetter, noX, noC, noCaret, noOct⟩ := layout_only ch isLayout
    unfold documentedEscape
    simp only [noLetter, if_neg noX, noOct, if_neg noCaret, if_neg noC, isLayout]
    rfl
  | itself noLetter noX noC noCaret noOct noLayout =>
    unfold documentedEscape
    simp only [noLetter, if_neg noX, noOct, if_neg noCaret, if_neg noC, noLayout]
    rfl

theorem documentedItem_backslash (quote : Quote) (rest : List UInt8) :
    documentedItem quote (BACKSLASH :: rest) = documentedEscape rest := by
  cases quote <;> rfl

theorem item_octal {quote : Quote} {ch : UInt8} (isOct : isOctDigit ch = true)
    (rest : List UInt8) :
    item quote (BACKSLASH :: ch :: rest) =
      .ok (some [UInt8.ofNat (parseOctCode 3 0 rest).1], (parseOctCode 3 0 rest).2) := by
  obtain ⟨noLetter, noX, noC, noCaret⟩ := octal_only ch isOct
  rw [item_backslash]
  unfold nextEscapeSequence
  simp only [noLetter, if_neg noX, if_neg noC, if_neg noCaret, isOct]
  rfl

theorem item_hex {quote : Quote} {h1 h2 : UInt8} {v1 v2 : ℕ} (first : hexValue h1 = some v1)
    (second : hexValue h2 = some v2) (rest : List UInt8) :
    item quote (BACKSLASH :: 'x'.toUInt8 :: h1 :: h2 :: rest) =
      .ok (some [UInt8.ofNat (v1 <<< 8 ||| v2)], rest) := by
  have high : ∀ text, parseHexDigit (h1 :: text) = .ok (v1, text) := fun text => by
    rw [parseHexDigit, first]
  have low : ∀ text, parseHexDigit (h2 :: text) = .ok (v2, text) := fun text => by
    rw [parseHexDigit, second]
  rw [item_backslash]
  change ((parseHexDigit (h1 :: h2 :: rest) >>= _).map _) = _
  rw [high]
  change ((parseHexDigit (h2 :: rest) >>= _).map _) = _
  rw [low]
  rfl

theorem hex_agrees : ∀ v1 v2 : Fin 16,
    UInt8.ofNat (16 * v1 + v2) = UInt8.ofNat (v1.val <<< 8 ||| v2.val) → v1 = 0 := by
  decide

theorem asDocumented_iff (quote : Quote) (text : List UInt8) :
    AsDocumented quote text ↔ Regular quote text := by
  constructor
  · intro documented
    refine ⟨?_, ?_, ?_⟩
    · rintro rest rfl rfl
      have same := documented _ _ (item_single_twice rest)
      change some ([APOSTROPHE], rest) = _ at same
      have lengths := congrArg (fun r => r.2.length) (Option.some.inj same)
      exact absurd lengths (Nat.ne_of_lt (Nat.lt_succ_self _))
    · rintro h1 h2 v1 v2 rest rfl first second
      have same := documented _ _ (item_hex first second rest)
      rw [documentedItem_backslash] at same
      change (do
        let high ← hexValue h1
        let low ← hexValue h2
        some ([UInt8.ofNat (16 * high + low)], rest)) = _ at same
      rw [first, second] at same
      have value := (List.cons.inj (Prod.mk.inj (Option.some.inj same)).1).1
      exact congrArg Fin.val (hex_agrees ⟨v1, hexValue_lt h1 v1 first⟩
        ⟨v2, hexValue_lt h2 v2 second⟩ value)
    · rintro ch rest rfl isOct
      have same := documented _ _ (item_octal isOct rest)
      rw [documentedItem_backslash] at same
      exact (octal_agrees_iff isOct rest).1 same
  · intro regular added rest' reads
    obtain _ | ⟨ch, rest⟩ := text
    · exact absurd (item_length reads) (Nat.not_lt_zero _)
    by_cases isQuote : ch = quote.code
    · subst isQuote
      by_cases twice : rest.head? = some quote.code
      · obtain _ | ⟨second, after⟩ := rest
        · cases twice
        obtain rfl := Option.some.inj twice
        cases quote with
        | single => exact absurd rfl (regular.doubled after rfl)
        | double =>
          cases reads
          rfl
      · rw [item_end twice] at reads
        cases reads
    · by_cases isBackslash : ch = BACKSLASH
      · subst isBackslash
        obtain ⟨ch, after, rfl, escape⟩ := item_escape reads
        rw [documentedItem_backslash]
        refine documentedEscape_of_escape escape ?_ (regular.octal ch after rfl)
        rintro h1 h2 v1 v2 last rfl rfl
        exact regular.hex h1 h2 v1 v2 last rfl
      · rw [item_literal isQuote isBackslash] at reads
        cases reads
        rw [documentedItem, if_neg isQuote, if_neg isBackslash]

end Documented

section Result

/-- The quoted form of a text is one token with the text as its lexeme. -/
def RoundTrips (quote : Quote) (s : List UInt8) : Prop :=
  ∃ token, nextToken (quote.code :: escapePretty s ++ [quote.code]) = .ok (token, []) ∧
    token.lexeme = s

theorem no_comment (quote : Quote) (text : List UInt8) :
    ¬ isCommentBegin (quote.code :: text) = true := by
  intro begins
  obtain percent | slash := of_decide_eq_true begins
  · have first := Option.some.inj percent
    revert first
    cases quote <;> decide
  · have first := (List.cons.inj slash).1
    revert first
    cases quote <;> decide

theorem nextToken_quote (quote : Quote) (text : List UInt8) :
    nextToken (quote.code :: text) = nextQuoted quote text >>= fun reading =>
      .ok (⟨if quote = .single then .name else .string, reading.1, quote = .single⟩,
        reading.2) := by
  unfold nextToken
  dsimp only
  rw [if_neg (no_comment quote text)]
  cases quote <;> rfl

theorem roundTrips_iff (quote : Quote) (s : List UInt8) :
    RoundTrips quote s ↔ Survives quote s := by
  unfold RoundTrips
  rw [List.cons_append, nextToken_quote]
  constructor
  · rintro ⟨token, tokenized, same⟩
    obtain ⟨⟨lexeme, rest⟩, read, made⟩ := except_bind_ok tokenized
    cases made
    subst same
    exact survives_of_reads _ _ le_rfl (nextQuoted_iff.1 read)
  · intro survives
    have read : nextQuoted quote (escapePretty s ++ [quote.code]) = .ok (s, []) :=
      nextQuoted_iff.2 (reads_of_survives survives)
    rw [read]
    exact ⟨_, rfl, rfl⟩

/-- The quoted form of a text comes back exactly if the text survives, and an item at the head of a
text is read as documented exactly if the text is regular. -/
theorem quoted_iff (quote : Quote) (s text : List UInt8) :
    (RoundTrips quote s ↔ Survives quote s) ∧ (AsDocumented quote text ↔ Regular quote text) :=
  ⟨roundTrips_iff quote s, asDocumented_iff quote text⟩

/-- The byte 128 is written as two hexadecimal digits, of which the second is read. -/
theorem high_byte_lost : ¬ ((∀ quote s, RoundTrips quote s) ∧
    ∀ quote text, AsDocumented quote text) := by
  rintro ⟨returns, _⟩
  obtain ⟨token, tokenized, same⟩ := returns .single [128]
  have read : nextToken (Quote.single.code :: escapePretty [128] ++ [Quote.single.code]) =
      .ok (⟨.name, [0], true⟩, []) := by decide
  rw [read] at tokenized
  cases tokenized
  exact absurd same (by decide)

end Result

end Epilog.Common.QuotedText
