/- Module: Epilog/Common/Tokenizer
   source: src/src/common/term_tokenizer.cpp, src/src/common/token_chars.hpp,
     src/src/common/token_chars.cpp
   digest: The tokens of a text: character classes, quoted items and escapes, numbers, comments. -/

import Mathlib.Data.Int.Notation
import Mathlib.Data.List.Basic

set_option autoImplicit false

namespace Epilog.Common.Tokenizer

section Characters

def isLayoutChar (ch : UInt8) : Bool :=
  ch.toNat ≤ 32 ∨ 127 ≤ ch.toNat ∧ ch.toNat ≤ 159

def isSmallLetter (ch : UInt8) : Bool :=
  97 ≤ ch.toNat ∧ ch.toNat ≤ 122 ∨ 223 ≤ ch.toNat ∧ ch.toNat ≠ 247

def isCapitalLetter (ch : UInt8) : Bool :=
  65 ≤ ch.toNat ∧ ch.toNat ≤ 90 ∨ 192 ≤ ch.toNat ∧ ch.toNat ≤ 222 ∧ ch.toNat ≠ 215

def isDigit (ch : UInt8) : Bool := 48 ≤ ch.toNat ∧ ch.toNat ≤ 57

/-- The table `IS_SYMBOL`, by its entries that hold -/
def isSymbolChar (ch : UInt8) : Bool :=
  ch.toNat ∈ [35, 36, 38, 42, 43, 45, 46, 47, 58, 60, 61, 62, 63, 64, 92, 94, 96, 126, 215, 247] ∨
    160 ≤ ch.toNat ∧ ch.toNat ≤ 191

def isSoloChar (ch : UInt8) : Bool := ch = 33 ∨ ch = 59

def isPunctuationChar (ch : UInt8) : Bool :=
  ch.toNat ∈ [37, 40, 41, 44, 91, 93] ∨ 123 ≤ ch.toNat ∧ ch.toNat ≤ 125

def isQuoteChar (ch : UInt8) : Bool := ch = 34 ∨ ch = 39

def isUnderlineChar (ch : UInt8) : Bool := ch = 95

def isAlpha (ch : UInt8) : Bool :=
  isCapitalLetter ch || isSmallLetter ch || isUnderlineChar ch || isDigit ch

def shouldBeEscaped (ch : UInt8) : Bool := isLayoutChar ch || isQuoteChar ch

def APOSTROPHE : UInt8 := 39

def DOUBLE_QUOTE : UInt8 := 34

def BACKSLASH : UInt8 := 92

end Characters

section Escapes

/-- `std::setbase(16)`: a digit of a byte in hexadecimal -/
def hexDigit (n : ℕ) : UInt8 := UInt8.ofNat (if n < 10 then 48 + n else 87 + n)

/-- The characters that `escape_pretty` writes with a letter after the backslash -/
def prettyLetters : List (UInt8 × Char) :=
  [(8, 'b'), (9, 't'), (10, 'n'), (11, 'v'), (12, 'f'), (13, 'r'), (27, 'e'), (127, 'd'), (7, 'a')]

/-- What `escape_pretty` writes after the backslash, for a character that it escapes -/
def escapeTail (cp : UInt8) : Option (List UInt8) :=
  match prettyLetters.lookup cp with
  | some letter => some [letter.toUInt8]
  | none =>
    if cp = 32 then none
    else if cp = APOSTROPHE then some [APOSTROPHE]
    else if 127 ≤ cp.toNat ∨ shouldBeEscaped cp then
      some ['x'.toUInt8, hexDigit (cp.toNat / 16), hexDigit (cp.toNat % 16)]
    else none

def escapePretty (str : List UInt8) : List UInt8 :=
  str.flatMap fun ch =>
    match escapeTail ch with
    | some tail => BACKSLASH :: tail
    | none => [ch]

end Escapes

section Quoted

inductive TokenException
  | unterminatedQuotedName
  | unterminatedEscape
  | unterminatedString
  | hexCode (ch : UInt8)
  | controlChar (ch : UInt8)
  | noCharCode
  | missingNumberAfterBase
  | missingDecimal
  | missingExponent
  deriving DecidableEq

/-- What a function of the tokenizer adds to the lexeme, with the characters it leaves -/
abbrev Reading := Except TokenException (List UInt8 × List UInt8)

def escapeLetters : List (UInt8 × UInt8) :=
  [('b'.toUInt8, 8), ('t'.toUInt8, 9), ('n'.toUInt8, 10), ('v'.toUInt8, 11), ('f'.toUInt8, 12),
    ('r'.toUInt8, 13), ('e'.toUInt8, 27), ('d'.toUInt8, 127), ('a'.toUInt8, 7)]

def hexValue (ch : UInt8) : Option ℕ :=
  if 97 ≤ ch.toNat ∧ ch.toNat ≤ 102 then some (ch.toNat - 97 + 10)
  else if 65 ≤ ch.toNat ∧ ch.toNat ≤ 70 then some (ch.toNat - 65 + 10)
  else if 48 ≤ ch.toNat ∧ ch.toNat ≤ 57 then some (ch.toNat - 48)
  else none

/-- `parse_hex_digit`, after the check for the end of the text -/
def parseHexDigit : List UInt8 → Except TokenException (ℕ × List UInt8)
  | [] => .error .unterminatedEscape
  | ch :: rest =>
    match hexValue ch with
    | some v => .ok (v, rest)
    | none => .error (.hexCode ch)

def isOctDigit (ch : UInt8) : Bool := 48 ≤ ch.toNat ∧ ch.toNat ≤ 55

/-- `parse_oct_code`, with the rounds that are left and the value so far. The character that ends
the digits is consumed. -/
def parseOctCode : ℕ → ℕ → List UInt8 → ℕ × List UInt8
  | 0, v, rest => (v, rest)
  | _ + 1, v, [] => (v, [])
  | n + 1, v, ch :: rest =>
    if isOctDigit ch then parseOctCode n (v <<< 3 ||| (ch.toNat - 48)) rest else (v, rest)

/-- `next_escape_sequence`, after the backslash -/
def nextEscapeSequence : List UInt8 → Reading
  | [] => .error .unterminatedEscape
  | ch :: rest =>
    match escapeLetters.lookup ch with
    | some c => .ok ([c], rest)
    | none =>
      if ch = 'x'.toUInt8 then do
        let (v1, rest) ← parseHexDigit rest
        let (v2, rest) ← parseHexDigit rest
        .ok ([UInt8.ofNat (v1 <<< 8 ||| v2)], rest)
      else if ch = 'c'.toUInt8 then .ok ([], rest.dropWhile isLayoutChar)
      else if ch = '^'.toUInt8 then
        match rest with
        | [] => .error .unterminatedEscape
        | ch :: rest =>
          if ch = '?'.toUInt8 then .ok ([127], rest)
          else if isCapitalLetter ch then .ok ([UInt8.ofNat ((ch.toNat - 65 + 1) % 32)], rest)
          else if isSmallLetter ch then .ok ([UInt8.ofNat ((ch.toNat - 97 + 1) % 32)], rest)
          else .error (.controlChar ch)
      else if isOctDigit ch then
        let (v, rest) := parseOctCode 3 0 rest
        .ok ([UInt8.ofNat v], rest)
      else if isLayoutChar ch then .ok ([], rest)
      else .ok ([ch], rest)

/-- The two kinds of quoted tokens -/
inductive Quote
  | single
  | double
  deriving DecidableEq

def Quote.code : Quote → UInt8
  | .single => APOSTROPHE
  | .double => DOUBLE_QUOTE

/-- What one round of a loop of a quoted token adds, or `none` where the token ends -/
abbrev Item := Except TokenException (Option (List UInt8) × List UInt8)

/-- One round of `next_quoted_name`. A second quote is only looked at: it stays in the text. -/
def quotedNameItem : List UInt8 → Item
  | [] => .error .unterminatedQuotedName
  | ch :: rest =>
    if ch = APOSTROPHE then
      if rest.head? = some APOSTROPHE then .ok (some [APOSTROPHE], rest) else .ok (none, rest)
    else if ch ≠ BACKSLASH then .ok (some [ch], rest)
    else (nextEscapeSequence rest).map fun (added, rest) => (some added, rest)

/-- One round of `next_string` -/
def stringItem : List UInt8 → Item
  | [] => .error .unterminatedString
  | ch :: rest =>
    if ch = DOUBLE_QUOTE then
      if rest.head? = some DOUBLE_QUOTE then .ok (some [DOUBLE_QUOTE], rest.tail)
      else .ok (none, rest)
    else if ch = BACKSLASH then
      (nextEscapeSequence rest).map fun (added, rest) => (some added, rest)
    else .ok (some [ch], rest)

def item : Quote → List UInt8 → Item
  | .single => quotedNameItem
  | .double => stringItem

/-- The rounds up to the end of the token. Each consumes a character, so that the rounds of the
length of the text suffice, with one for its end. -/
def quotedItems (quote : Quote) : ℕ → List UInt8 → Reading
  | 0, _ => .error .unterminatedQuotedName
  | n + 1, text => do
    match ← item quote text with
    | (none, rest) => .ok ([], rest)
    | (some added, rest) => do
      let (lexeme, rest) ← quotedItems quote n rest
      .ok (added ++ lexeme, rest)

/-- `next_quoted_name` and `next_string`, after the quote that opens the token -/
def nextQuoted (quote : Quote) (text : List UInt8) : Reading :=
  quotedItems quote (text.length + 1) text

end Quoted

section Numbers

def nextXs (predicate : UInt8 → Bool) (text : List UInt8) : List UInt8 × List UInt8 :=
  (text.takeWhile predicate, text.dropWhile predicate)

/-- `next_integer_digits`, with whether a digit was read and whether the last character is an
underscore -/
def integerDigits : Bool → Bool → List UInt8 → List UInt8 × List UInt8
  | _, _, [] => ([], [])
  | some_, underscore, ch :: rest =>
    if isDigit ch then
      let (digits, rest) := integerDigits true false rest
      (ch :: digits, rest)
    else if isUnderlineChar ch ∧ some_ ∧ ¬ underscore then
      let (digits, rest) := integerDigits true true rest
      (ch :: digits, rest)
    else ([], ch :: rest)

def nextIntegerDigits (text : List UInt8) : List UInt8 × List UInt8 :=
  integerDigits false false text

/-- `boost::lexical_cast` of an `int` to a string -/
def decimal (v : ℤ) : List UInt8 :=
  let digits := (Nat.toDigits 10 v.natAbs).map Char.toUInt8
  if v < 0 then '-'.toUInt8 :: digits else digits

/-- `next_char_code`, which replaces the lexeme -/
def nextCharCode (text : List UInt8) : Reading := do
  let (lexeme, rest) ← match text with
    | [] => Except.ok ([], [])
    | ch :: rest => if ch = BACKSLASH then nextEscapeSequence rest else .ok ([ch], rest)
  match lexeme with
  | [] => .error .noCharCode
  | ch :: _ => .ok (decimal ch.toInt8.toInt, rest)

def nextExponent (text : List UInt8) : Reading :=
  let signed := text.drop 1
  let sign := if signed.head? ∈ [some '+'.toUInt8, some '-'.toUInt8] then signed.take 1 else []
  let (digits, rest) := nextXs isDigit (signed.drop sign.length)
  if digits = [] then .error .missingExponent
  else .ok (text.take 1 ++ sign ++ digits, rest)

def startsExponent (text : List UInt8) : Bool :=
  text.head? = some 'e'.toUInt8 ∨ text.head? = some 'E'.toUInt8

def nextDecimal (text : List UInt8) : Reading := do
  let (digits, rest) := nextXs isDigit (text.drop 1)
  if digits = [] then .error .missingDecimal
  else if startsExponent rest then do
    let (exponent, rest) ← nextExponent rest
    .ok (text.take 1 ++ digits ++ exponent, rest)
  else .ok (text.take 1 ++ digits, rest)

def nextFloat (text : List UInt8) : Reading :=
  if startsExponent text then nextExponent text else nextDecimal text

inductive TokenType
  | eof
  | name
  | naturalNumber
  | unsignedFloat
  | variable_
  | string
  | punctuationChar
  | layoutText
  | fullStop
  deriving DecidableEq

/-- `next_number`, at a digit -/
def nextNumber (text : List UInt8) : Except TokenException (TokenType × List UInt8 × List UInt8) :=
  do
  let (digits, rest) := nextIntegerDigits text
  match rest with
  | [] => .ok (.naturalNumber, digits, [])
  | ch :: after =>
    if ch = APOSTROPHE then
      if digits = ['0'.toUInt8] then do
        let (lexeme, rest) ← nextCharCode after
        .ok (.naturalNumber, lexeme, rest)
      else
        let (alphas, rest) := nextXs isAlpha after
        if alphas = [] then .error .missingNumberAfterBase
        else .ok (.naturalNumber, digits ++ APOSTROPHE :: alphas, rest)
    else if ch = '.'.toUInt8 ∨ startsExponent rest then
      if after = [] ∨ after.head?.any isLayoutChar then .ok (.naturalNumber, digits, rest)
      else do
        let (fraction, rest) ← nextFloat rest
        .ok (.unsignedFloat, digits ++ fraction, rest)
    else .ok (.naturalNumber, digits, rest)

end Numbers

section Tokens

structure Token where
  type : TokenType
  lexeme : List UInt8
  quoted : Bool
  deriving DecidableEq

def isCommentBegin (text : List UInt8) : Bool :=
  text.head? = some '%'.toUInt8 ∨ text.take 2 = ['/'.toUInt8, '*'.toUInt8]

/-- The loop of `parse_block_comment`, with the depth of the nesting -/
def blockComment : ℕ → ℕ → List UInt8 → List UInt8 × List UInt8
  | 0, _, rest => ([], rest)
  | _, 0, rest => ([], rest)
  | _, _, [] => ([], [])
  | n + 1, depth + 1, ch :: rest =>
    let here := (ch :: rest).take 2
    if here = ['*'.toUInt8, '/'.toUInt8] then
      let (lexeme, rest) := blockComment n depth (rest.drop 1)
      (here ++ lexeme, rest)
    else if here = ['/'.toUInt8, '*'.toUInt8] then
      let (lexeme, rest) := blockComment n (depth + 2) (rest.drop 1)
      (here ++ lexeme, rest)
    else
      let (lexeme, rest) := blockComment n (depth + 1) rest
      (ch :: lexeme, rest)

/-- `parse_line_comment`: up to the end of the line, which belongs to the comment -/
def lineComment (text : List UInt8) : List UInt8 × List UInt8 :=
  let line := text.takeWhile (· ≠ 10)
  let rest := text.dropWhile (· ≠ 10)
  (line ++ rest.take 1, rest.drop 1)

/-- `next_layout_text`, in at most as many rounds as there are characters -/
def layoutText : ℕ → List UInt8 → List UInt8 × List UInt8
  | 0, rest => ([], rest)
  | _, [] => ([], [])
  | n + 1, ch :: rest =>
    if isLayoutChar ch then
      let (lexeme, rest) := layoutText n rest
      (ch :: lexeme, rest)
    else if isCommentBegin (ch :: rest) then
      let (comment, rest) :=
        if ch = '%'.toUInt8 then lineComment (ch :: rest)
        else
          let (inner, rest) := blockComment rest.length 1 (rest.drop 1)
          (ch :: '*'.toUInt8 :: inner, rest)
      let (lexeme, rest) := layoutText n rest
      (comment ++ lexeme, rest)
    else ([], ch :: rest)

def nextSymbol : List UInt8 → List UInt8 × List UInt8
  | [] => ([], [])
  | ch :: rest =>
    if isSymbolChar ch ∧ ¬ isCommentBegin (ch :: rest) then
      let (lexeme, rest) := nextSymbol rest
      (ch :: lexeme, rest)
    else ([], ch :: rest)

/-- `next_token_helper`. The last case is the full stop: the classes cover all other characters. -/
def nextToken (text : List UInt8) : Except TokenException (Token × List UInt8) :=
  let plain (type : TokenType) (reading : List UInt8 × List UInt8) :
      Except TokenException (Token × List UInt8) := .ok (⟨type, reading.1, false⟩, reading.2)
  match text with
  | [] => plain .eof ([], [])
  | ch :: rest =>
    if isCommentBegin text then plain .layoutText (layoutText text.length text)
    else if isDigit ch then do
      let (type, reading) ← nextNumber text
      plain type reading
    else if ch = APOSTROPHE then do
      let (lexeme, rest) ← nextQuoted .single rest
      .ok (⟨.name, lexeme, true⟩, rest)
    else if isSmallLetter ch then plain .name (nextXs isAlpha text)
    else if isCapitalLetter ch || isUnderlineChar ch then plain .variable_ (nextXs isAlpha text)
    else if isLayoutChar ch then plain .layoutText (layoutText text.length text)
    else if isSymbolChar ch ∧ ch ≠ '.'.toUInt8 then plain .name (nextSymbol text)
    else if isSoloChar ch then plain .name ([ch], rest)
    else if isPunctuationChar ch then plain .punctuationChar ([ch], rest)
    else if ch = DOUBLE_QUOTE then do
      let (lexeme, rest) ← nextQuoted .double rest
      plain .string (lexeme, rest)
    else plain .fullStop ([ch], rest)

end Tokens

end Epilog.Common.Tokenizer
