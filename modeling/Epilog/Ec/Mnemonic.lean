/- Module: Epilog/Ec/Mnemonic
   source: src/src/ec/mnemonic.cpp, src/src/ec/mnemonic.hpp
   digest: Sentences of words and the entropy they stand for: which sentences are accepted. -/

import Epilog.Lib.Numeral

set_option autoImplicit false

namespace Epilog.Ec.Mnemonic

open Epilog.Lib.Numeral

section Model

/-- `BIP39_ENGLISH_WORD_LIST`, of which only this matters: no word is there twice. -/
structure WordList where
  word : Fin 2048 → String
  distinct : Function.Injective word

/-- `word_2_index.find`, for a list of any length -/
@[irreducible] def find {n : ℕ} (word : Fin n → String) (w : String) : Option (Fin n) :=
  (List.finRange n).find? fun i => word i = w

def WordList.index (list : WordList) (w : String) : Option (Fin 2048) := find list.word w

/-- `bytes_`, of 32+1 bytes -/
abbrev Buffer := {l : List UInt8 // l.length = 32 + 1}

/-- `sha256` -/
abbrev Hash := List UInt8 → {l : List UInt8 // l.length = 32}

/-- The members of `mnemonic` -/
structure State where
  bytes : Buffer
  ent : ℕ

/-- An access to `bytes_` at an index it does not have -/
structure Outside where
  index : ℕ
  deriving DecidableEq

def Buffer.zero : Buffer := ⟨List.replicate 33 0, List.length_replicate⟩

/-- `bytes_[k] = v` -/
def Buffer.set (bytes : Buffer) (k : ℕ) (v : UInt8) : Buffer :=
  ⟨bytes.val.set k v, by rw [List.length_set, bytes.property]⟩

/-- The upper `num` bits of a byte, in their place -/
def masked (byte : UInt8) (num : ℕ) : ℕ := byte.toNat &&& (0xff <<< (8 - num))

variable (hash : Hash)

/-- `checksum[0]`, for the bytes that the entropy has -/
def checksum (bytes : Buffer) (ent : ℕ) : UInt8 :=
  (hash (bytes.val.take (ent / 8))).val.getD 0 0

def addChecksum (m : State) : State :=
  let sum := UInt8.ofNat (masked (checksum hash m.bytes m.ent) (m.ent / 32))
  { m with bytes := m.bytes.set (m.ent / 8) sum }

/-- `set`, within the sizes that it asserts -/
def set (m : State) (entropy : List UInt8) (fits : entropy.length ≤ 32) : State :=
  addChecksum hash
    { bytes := ⟨entropy ++ m.bytes.val.drop entropy.length, by
        rw [List.length_append, List.length_drop, m.bytes.property]
        omega⟩
      ent := entropy.length * 8 }

def checkChecksum (m : State) : Except Outside Bool :=
  if m.ent / 8 < 33 then
    .ok (masked (checksum hash m.bytes m.ent) (m.ent / 32) =
      masked (m.bytes.val.getD (m.ent / 8) 0) (m.ent / 32))
  else .error ⟨m.ent / 8⟩

/-- The bits of a word that go into one byte, when `n` of them are written already -/
def pieceSize (off n : ℕ) : ℕ := if 11 < n + (8 - off % 8) then 11 - n else 8 - off % 8

theorem pieceSize_pos (off : ℕ) {n : ℕ} (more : n < 11) : 0 < pieceSize off n := by
  rw [pieceSize]
  split <;> omega

theorem pieceSize_le (off : ℕ) {n : ℕ} (more : n < 11) :
    n + pieceSize off n ≤ 11 ∧ off % 8 + pieceSize off n ≤ 8 ∧
      (n + pieceSize off n = 11 ∨ off % 8 + pieceSize off n = 8) := by
  rw [pieceSize]
  split <;> omega

/-- The inner loop of `from_sentence`, with the bytes it leaves -/
def putWord (bytes : Buffer) (word_index off n : ℕ) : Except Outside Buffer :=
  if n < 11 then
    if off / 8 < 33 then
      putWord
        (bytes.set (off / 8) (UInt8.ofNat ((bytes.val.getD (off / 8) 0).toNat |||
          (word_index >>> (11 - pieceSize off n)) <<< (8 - off % 8 - pieceSize off n))))
        (word_index <<< pieceSize off n) (off + pieceSize off n) (n + pieceSize off n)
    else .error ⟨off / 8⟩
  else .ok bytes
termination_by 11 - n
decreasing_by
  have more := pieceSize_pos off (n := n) (by omega)
  omega

variable (list : WordList)

/-- The outer loop of `from_sentence`: `none` for a word that is not in the list -/
def putWords (m : State) : List String → Except Outside (Option State)
  | [] => .ok (some m)
  | w :: ws =>
    match list.index w with
    | none => .ok none
    | some i =>
      match putWord m.bytes i.val m.ent 0 with
      | .error e => .error e
      | .ok bytes => putWords { bytes := bytes, ent := m.ent + 11 } ws

/-- `from_sentence`: the object after it, when it returns true -/
def fromSentence (words : List String) : Except Outside (Option State) :=
  match putWords list { bytes := .zero, ent := 0 } words with
  | .error e => .error e
  | .ok none => .ok none
  | .ok (some read) =>
    let m := { read with ent := read.ent - read.ent / 11 / 3 }
    match checkChecksum hash m with
    | .error e => .error e
    | .ok true => .ok (some m)
    | .ok false => .ok none

/-- The inner loop of `to_integers` -/
def getWord (bytes : Buffer) (word_index off n : ℕ) : ℕ :=
  if n < 11 then
    getWord bytes
      ((word_index <<< pieceSize off n) |||
        (((bytes.val.getD (off / 8) 0).toNat &&& (0xff >>> (off % 8))) >>>
          (8 - off % 8 - pieceSize off n)))
      (off + pieceSize off n) (n + pieceSize off n)
  else word_index
termination_by 11 - n
decreasing_by
  have more := pieceSize_pos off (n := n) (by omega)
  omega

/-- The outer loop of `to_integers`, from the bit `i` on -/
def getWords (bytes : Buffer) (numBits i : ℕ) : List ℕ :=
  if i < numBits then getWord bytes 0 i 0 :: getWords bytes numBits (i + 11) else []
termination_by numBits - i

def toIntegers (m : State) : List ℕ := getWords m.bytes (m.ent + m.ent / 32) 0

/-- `to_sentence`, with the names of the atoms of the list -/
def toSentence (m : State) : List String :=
  (toIntegers m).map fun i => list.word (Fin.ofNat 2048 i)

end Model
section Bits

/-- The bytes as one number of 264 bits -/
def value (bytes : Buffer) : ℕ := numeral 256 (bytes.val.map UInt8.toNat)

theorem byte_lt (bytes : List UInt8) : ∀ d ∈ bytes.map UInt8.toNat, d < 256 := by
  intro d mem
  obtain ⟨v, -, rfl⟩ := List.mem_map.mp mem
  exact UInt8.toNat_lt v

theorem length_map (bytes : Buffer) : (bytes.val.map UInt8.toNat).length = 33 := by
  rw [List.length_map, bytes.property]

theorem pow_byte (k : ℕ) : 256 ^ k = 2 ^ (8 * k) := by rw [Nat.pow_mul]

theorem slice_byte (bytes : Buffer) {k : ℕ} (inside : k < 33) :
    slice 264 (value bytes) (8 * k) 8 = (bytes.val.getD k 0).toNat := by
  have within : k < (bytes.val.map UInt8.toNat).length := by
    rw [length_map]
    exact inside
  have long : k < bytes.val.length := by
    rw [bytes.property]
    exact inside
  have digit := numeral_digit (b := 256) (by decide) (byte_lt bytes.val) within
  rw [length_map, pow_byte, List.getElem_map] at digit
  rw [slice, show 264 - (8 * k + 8) = 8 * (33 - (k + 1)) by omega, value, List.getD,
    List.getElem?_eq_getElem long, Option.getD_some]
  exact digit

theorem slice_piece (bytes : Buffer) (off : ℕ) {n : ℕ} (inside : off / 8 < 33)
    (within : off % 8 + n ≤ 8) :
    slice 264 (value bytes) off n =
      ((bytes.val.getD (off / 8) 0).toNat &&& (0xff >>> (off % 8))) >>> (8 - off % 8 - n) := by
  have mask : ∀ i < 8, 0xff >>> i = 2 ^ (8 - i) - 1 := by decide
  have place : off = 8 * (off / 8) + off % 8 := (Nat.div_add_mod off 8).symm
  have cut := slice_slice 264 (value bytes) (8 * (off / 8)) within (by omega)
  rw [← place, slice_byte bytes inside] at cut
  rw [cut, mask _ (Nat.mod_lt off (by decide)), Nat.and_two_pow_sub_one_eq_mod,
    Nat.shiftRight_eq_div_pow, show 8 - (off % 8 + n) = 8 - off % 8 - n by omega]

theorem getWord_eq (bytes : Buffer) {word_index : ℕ} (off : ℕ) {n : ℕ} (start : n ≤ off) (few : n ≤ 11)
    (inside : off + (11 - n) ≤ 264) (read : word_index = slice 264 (value bytes) (off - n) n) :
    getWord bytes word_index off n = slice 264 (value bytes) (off - n) 11 := by
  fun_induction getWord bytes word_index off n with
  | case1 word_index off n more ih =>
    obtain ⟨fits, within, -⟩ := pieceSize_le off more
    have piece := slice_piece bytes off (by omega) within
    have next := slice_add 264 (value bytes) (off - n) n (pieceSize off n) (by omega)
    rw [show off + pieceSize off n - (n + pieceSize off n) = off - n by omega] at ih
    apply ih (by omega) fits (by omega)
    rw [next, Nat.sub_add_cancel start, ← piece, ← read]
    have less := slice_lt 264 (value bytes) off (pieceSize off n)
    rw [Nat.shiftLeft_eq, ← Nat.shiftLeft_eq, ← Nat.shiftLeft_add_eq_or_of_lt less,
      Nat.shiftLeft_eq]
  | case2 word_index off n done =>
    obtain rfl : n = 11 := by omega
    exact read

end Bits

section Writing

theorem value_set {bytes : Buffer} {k e : ℕ} (inside : k < 33)
    (fits : (bytes.val.getD k 0).toNat + e < 256) :
    value (bytes.set k (UInt8.ofNat ((bytes.val.getD k 0).toNat + e))) =
      value bytes + e * 2 ^ (8 * (32 - k)) := by
  have within : k < (bytes.val.map UInt8.toNat).length := by
    rw [length_map]
    exact inside
  have long : k < bytes.val.length := by
    rw [bytes.property]
    exact inside
  have grown := numeral_set_add (b := 256) within e
  rw [length_map, pow_byte, List.getElem_map, show 33 - (k + 1) = 32 - k by omega] at grown
  rw [List.getD, List.getElem?_eq_getElem long, Option.getD_some] at fits ⊢
  rw [value, Buffer.set, List.map_set, UInt8.toNat_ofNat_of_lt' fits]
  exact grown

theorem or_piece {U y i n : ℕ} (within : i + n ≤ 8) (clean : i = 0 ∨ y < 2 ^ n) :
    ((U * 2 ^ (8 - i)) % 256 ||| y <<< (8 - i - n)) % 256 =
        (U * 2 ^ (8 - i)) % 256 + (y % 2 ^ n) * 2 ^ (8 - i - n) ∧
      (U * 2 ^ (8 - i)) % 256 + (y % 2 ^ n) * 2 ^ (8 - i - n) < 256 := by
  have piece : y % 2 ^ n * 2 ^ (8 - i - n) < 2 ^ (8 - i) := by
    calc y % 2 ^ n * 2 ^ (8 - i - n) < 2 ^ n * 2 ^ (8 - i - n) :=
          Nat.mul_lt_mul_of_pos_right (Nat.mod_lt _ (Nat.two_pow_pos n)) (Nat.two_pow_pos _)
      _ = 2 ^ (8 - i) := by rw [← Nat.pow_add, show n + (8 - i - n) = 8 - i by omega]
  rcases clean with rfl | less
  · have byte : 256 = 2 ^ n * 2 ^ (8 - n) := by
      rw [← Nat.pow_add, show n + (8 - n) = 8 by omega]
    have none : U * 2 ^ (8 - 0) % 256 = 0 := Nat.mul_mod_left U 256
    rw [none, Nat.zero_or, Nat.zero_add]
    refine ⟨?_, piece⟩
    rw [Nat.shiftLeft_eq, show 8 - 0 - n = 8 - n by omega, byte, Nat.mul_mod_mul_right]
  · have byte : 256 = 2 ^ i * 2 ^ (8 - i) := by
      rw [← Nat.pow_add, show i + (8 - i) = 8 by omega]
    have upper : U * 2 ^ (8 - i) % 256 = (U % 2 ^ i) <<< (8 - i) := by
      rw [byte, Nat.mul_mod_mul_right, Nat.shiftLeft_eq]
    have bound : U % 2 ^ i + 1 ≤ 2 ^ i := Nat.mod_lt U (Nat.two_pow_pos i)
    rw [Nat.mod_eq_of_lt less] at piece ⊢
    have total : (U % 2 ^ i) <<< (8 - i) + y * 2 ^ (8 - i - n) < 256 := by
      rw [Nat.shiftLeft_eq]
      calc U % 2 ^ i * 2 ^ (8 - i) + y * 2 ^ (8 - i - n)
          < U % 2 ^ i * 2 ^ (8 - i) + 2 ^ (8 - i) := Nat.add_lt_add_left piece _
        _ = (U % 2 ^ i + 1) * 2 ^ (8 - i) := by ring
        _ ≤ 2 ^ i * 2 ^ (8 - i) := Nat.mul_le_mul_right _ bound
        _ = 256 := byte.symm
    rw [upper, Nat.shiftLeft_eq y, ← Nat.shiftLeft_add_eq_or_of_lt piece]
    exact ⟨Nat.mod_eq_of_lt total, total⟩

theorem value_piece {bytes : Buffer} {off m U y : ℕ} (within : off / 8 < 33)
    (sized : off % 8 + m ≤ 8) (held : value bytes = U * 2 ^ (264 - off))
    (clean : off % 8 = 0 ∨ y < 2 ^ m) :
    value (bytes.set (off / 8) (UInt8.ofNat ((bytes.val.getD (off / 8) 0).toNat |||
        y <<< (8 - off % 8 - m)))) = (U * 2 ^ m + y % 2 ^ m) * 2 ^ (264 - (off + m)) := by
  have old : (bytes.val.getD (off / 8) 0).toNat = (U * 2 ^ (8 - off % 8)) % 256 := by
    rw [← slice_byte bytes within, slice, held,
      show 264 - off = 8 - off % 8 + (264 - (8 * (off / 8) + 8)) by omega, Nat.pow_add,
      ← Nat.mul_assoc, Nat.mul_div_cancel _ (Nat.two_pow_pos _)]
    rfl
  obtain ⟨joined, byte⟩ := or_piece (U := U) sized clean
  rw [← old] at joined byte
  have same : UInt8.ofNat ((bytes.val.getD (off / 8) 0).toNat ||| y <<< (8 - off % 8 - m)) =
      UInt8.ofNat ((bytes.val.getD (off / 8) 0).toNat + y % 2 ^ m * 2 ^ (8 - off % 8 - m)) := by
    apply UInt8.toNat_inj.mp
    rw [UInt8.toNat_ofNat', UInt8.toNat_ofNat', joined, Nat.mod_eq_of_lt byte]
  have places : 2 ^ (8 - off % 8 - m) * 2 ^ (8 * (32 - off / 8)) = 2 ^ (264 - (off + m)) := by
    rw [← Nat.pow_add]
    congr 1
    omega
  have whole : 2 ^ (264 - off) = 2 ^ m * 2 ^ (264 - (off + m)) := by
    rw [← Nat.pow_add]
    congr 1
    omega
  rw [same, value_set within byte, held, Nat.mul_assoc (y % 2 ^ m), places, whole]
  ring

theorem word_pieces (w : ℕ) {n m : ℕ} (fits : n + m ≤ 11) :
    w / 2 ^ (11 - (n + m)) = w / 2 ^ (11 - n) * 2 ^ m + w / 2 ^ (11 - (n + m)) % 2 ^ m := by
  have parts := Nat.div_add_mod (w / 2 ^ (11 - (n + m))) (2 ^ m)
  rw [Nat.div_div_eq_div_mul, ← Nat.pow_add, show 11 - (n + m) + m = 11 - n by omega] at parts
  rw [Nat.mul_comm (w / 2 ^ (11 - n)), parts]

theorem piece_clean {w off n m : ℕ} (word : w < 2 ^ 11) (more : n < 11) (fits : n + m ≤ 11)
    (aligned : n = 0 ∨ off % 8 = 0 ∨ n = 11) :
    off % 8 = 0 ∨ w / 2 ^ (11 - (n + m)) < 2 ^ m := by
  rcases aligned with rfl | zero | full
  · right
    apply Nat.div_lt_of_lt_mul
    rw [← Nat.pow_add, show 11 - (0 + m) + m = 11 by omega]
    exact word
  · exact Or.inl zero
  · omega

theorem putWord_ok {bytes : Buffer} {word_index off n V w : ℕ} (word : w < 2 ^ 11) (few : n ≤ 11)
    (left : word_index = w * 2 ^ n)
    (held : value bytes = (V * 2 ^ n + w / 2 ^ (11 - n)) * 2 ^ (264 - off))
    (aligned : n = 0 ∨ off % 8 = 0 ∨ n = 11) (inside : off + (11 - n) ≤ 264) :
    ∃ bytes', putWord bytes word_index off n = .ok bytes' ∧
      value bytes' = (V * 2 ^ 11 + w) * 2 ^ (264 - (off + (11 - n))) := by
  fun_induction putWord bytes word_index off n with
  | case1 bytes word_index off n more within ih =>
    obtain ⟨fits, sized, ends⟩ := pieceSize_le off more
    generalize pieceSize off n = m at ih fits sized ends ⊢
    have upper : word_index >>> (11 - m) = w / 2 ^ (11 - (n + m)) := by
      rw [left, Nat.shiftRight_eq_div_pow, show 11 - m = 11 - (n + m) + n by omega, Nat.pow_add,
        Nat.mul_div_mul_right _ _ (Nat.two_pow_pos n)]
    have moved := value_piece within sized held (piece_clean word more fits aligned)
    have shifted : word_index <<< m = w * 2 ^ (n + m) := by
      rw [left, Nat.shiftLeft_eq, Nat.mul_assoc, ← Nat.pow_add]
    have joined : (V * 2 ^ n + w / 2 ^ (11 - n)) * 2 ^ m + w / 2 ^ (11 - (n + m)) % 2 ^ m =
        V * 2 ^ (n + m) + w / 2 ^ (11 - (n + m)) := by
      rw [Nat.add_mul, Nat.add_assoc, ← word_pieces w fits, Nat.mul_assoc, ← Nat.pow_add]
    have rest : off + m + (11 - (n + m)) = off + (11 - n) := by
      clear ih
      omega
    have next : n + m = 0 ∨ (off + m) % 8 = 0 ∨ n + m = 11 := by
      clear ih
      omega
    rw [joined] at moved
    rw [upper, rest] at ih
    rw [upper]
    exact ih fits shifted moved next inside
  | case2 bytes word_index off n more outside => omega
  | case3 bytes word_index off n done =>
    obtain rfl : n = 11 := by omega
    exact ⟨bytes, rfl, by simpa using held⟩

end Writing

section Sentences

theorem value_inj {bytes bytes' : Buffer} (equal : value bytes = value bytes') :
    bytes = bytes' := by
  apply Subtype.ext
  have maps := numeral_inj (b := 256) (by decide) (by rw [length_map, length_map]) (byte_lt _) (byte_lt _)
    equal
  exact List.map_injective_iff.mpr (fun _ _ => UInt8.toNat_inj.mp) maps

/-- The buffer that has a number for its value -/
def spell (x : ℕ) : Buffer :=
  ⟨(digits 256 33 x).map UInt8.ofNat, by rw [List.length_map, length_digits]⟩

theorem value_spell {x : ℕ} (bound : x < 2 ^ (8 * 33)) : value (spell x) = x := by
  have bytes : ((digits 256 33 x).map UInt8.ofNat).map UInt8.toNat = digits 256 33 x := by
    rw [List.map_map]
    conv => rhs; rw [← List.map_id (digits 256 33 x)]
    apply List.map_congr_left
    intro d mem
    exact UInt8.toNat_ofNat_of_lt' (digits_lt (by decide) d mem)
  rw [value, spell]
  dsimp only
  rw [bytes, numeral_digits, pow_byte, Nat.mod_eq_of_lt bound]

/-- The number that the bits of the words spell -/
def sentenceValue (ws : List (Fin 2048)) : ℕ := numeral 2048 (ws.map Fin.val)

theorem word_lt (ws : List (Fin 2048)) : ∀ d ∈ ws.map Fin.val, d < 2048 := by
  intro d mem
  obtain ⟨w, -, rfl⟩ := List.mem_map.mp mem
  exact w.isLt

theorem sentenceValue_lt (ws : List (Fin 2048)) : sentenceValue ws < 2 ^ (11 * ws.length) := by
  have less := numeral_lt (b := 2048) (by decide) (word_lt ws)
  rw [List.length_map] at less
  rw [Nat.pow_mul]
  exact less

/-- The words one after the other, and zeros to the end of the buffer -/
def sentenceBytes (ws : List (Fin 2048)) : Buffer :=
  spell (sentenceValue ws * 2 ^ (264 - 11 * ws.length))

theorem value_sentenceBytes {ws : List (Fin 2048)} (few : ws.length ≤ 24) :
    value (sentenceBytes ws) = sentenceValue ws * 2 ^ (264 - 11 * ws.length) := by
  apply value_spell
  calc sentenceValue ws * 2 ^ (264 - 11 * ws.length)
      < 2 ^ (11 * ws.length) * 2 ^ (264 - 11 * ws.length) :=
        Nat.mul_lt_mul_of_pos_right (sentenceValue_lt ws) (Nat.two_pow_pos _)
    _ = 2 ^ (8 * 33) := by
        rw [← Nat.pow_add, show 11 * ws.length + (264 - 11 * ws.length) = 8 * 33 by omega]

variable (hash : Hash) (list : WordList)

theorem find_word {n : ℕ} {word : Fin n → String} (distinct : Function.Injective word)
    (i : Fin n) : find word (word i) = some i := by
  have exists_found : (find word (word i)).isSome := by
    rw [find, List.find?_isSome]
    exact ⟨i, List.mem_finRange i, decide_eq_true rfl⟩
  obtain ⟨k, found⟩ := Option.isSome_iff_exists.mp exists_found
  have told := found
  rw [find] at told
  have same := List.find?_some told
  rw [found, distinct (of_decide_eq_true same)]

theorem index_word (i : Fin 2048) : list.index (list.word i) = some i := find_word list.distinct i

theorem putWord_next {m : State} {k V : ℕ} (w : Fin 2048) (few : k < 24) (offset : m.ent = 11 * k)
    (held : value m.bytes = V * 2 ^ (264 - 11 * k)) :
    ∃ bytes, putWord m.bytes w.val m.ent 0 = .ok bytes ∧
      value bytes = (V * 2048 + w.val) * 2 ^ (264 - 11 * (k + 1)) := by
  have word : w.val < 2 ^ 11 := w.isLt
  have start : value m.bytes = (V * 2 ^ 0 + w.val / 2 ^ (11 - 0)) * 2 ^ (264 - m.ent) := by
    rw [held, offset, Nat.sub_zero, Nat.div_eq_of_lt word, Nat.pow_zero, Nat.mul_one, Nat.add_zero]
  obtain ⟨bytes, written, now⟩ := putWord_ok word (Nat.zero_le 11)
    (Nat.mul_one _).symm start (Or.inl rfl) (by omega)
  refine ⟨bytes, written, ?_⟩
  rw [now, show m.ent + (11 - 0) = 11 * (k + 1) by omega]
  rfl

theorem putWords_ok {m : State} {k V : ℕ} (ws : List (Fin 2048)) (few : k + ws.length ≤ 24)
    (offset : m.ent = 11 * k) (held : value m.bytes = V * 2 ^ (264 - 11 * k)) :
    ∃ bytes, putWords list m (ws.map list.word) =
        .ok (some { bytes := bytes, ent := 11 * (k + ws.length) }) ∧
      value bytes = (V * 2048 ^ ws.length + sentenceValue ws) *
        2 ^ (264 - 11 * (k + ws.length)) := by
  induction ws generalizing m k V with
  | nil =>
    simp only [List.length_nil, Nat.add_zero, Nat.pow_zero, Nat.mul_one]
    refine ⟨m.bytes, ?_, held⟩
    rw [← offset, List.map_nil, putWords]
  | cons w ws ih =>
    rw [List.length_cons] at few
    obtain ⟨bytes, written, now⟩ := putWord_next w (by omega) offset held
    obtain ⟨bytes', rest, last⟩ := ih (m := { bytes := bytes, ent := m.ent + 11 }) (by omega)
      (by dsimp only; omega) now
    have total : k + 1 + ws.length = k + (ws.length + 1) := by omega
    have spelled : sentenceValue (w :: ws) = w.val * 2048 ^ ws.length + sentenceValue ws := by
      rw [sentenceValue, List.map_cons, numeral_cons, List.length_map, sentenceValue]
    rw [total] at rest last
    rw [List.length_cons]
    refine ⟨bytes', ?_, ?_⟩
    · rw [List.map_cons, putWords, index_word]
      dsimp only
      rw [written]
      exact rest
    · rw [last, spelled]
      ring

theorem putWords_outside {m : State} {k V : ℕ} (ws : List (Fin 2048)) (start : k ≤ 24)
    (many : 24 < k + ws.length) (offset : m.ent = 11 * k)
    (held : value m.bytes = V * 2 ^ (264 - 11 * k)) :
    putWords list m (ws.map list.word) = .error ⟨33⟩ := by
  induction ws generalizing m k V with
  | nil =>
    rw [List.length_nil] at many
    clear held
    omega
  | cons w ws ih =>
    rw [List.length_cons] at many
    rw [List.map_cons, putWords, index_word]
    dsimp only
    by_cases full : k = 24
    · have behind : m.ent / 8 = 33 := by omega
      rw [putWord, if_pos (by decide), behind, if_neg (by decide)]
    · obtain ⟨bytes, written, now⟩ := putWord_next w (by omega) offset held
      rw [written]
      exact ih (by omega) (by omega) (by dsimp only; omega) now

end Sentences

section Acceptance

variable (hash : Hash) (list : WordList)

/-- The bits of entropy that `from_sentence` takes a number of words to have -/
def entropyBits (words : ℕ) : ℕ := 11 * words - words / 3

/-- The bits of the words behind the whole bytes of entropy begin like the hash of these bytes. -/
def TrailingBitsMatch (ws : List (Fin 2048)) : Prop :=
  (checksum hash (sentenceBytes ws) (entropyBits ws.length)).toNat /
      2 ^ (8 - entropyBits ws.length / 32) =
    ((sentenceBytes ws).val.getD (entropyBits ws.length / 8) 0).toNat /
      2 ^ (8 - entropyBits ws.length / 32)

instance (ws : List (Fin 2048)) : Decidable (TrailingBitsMatch hash ws) :=
  inferInstanceAs (Decidable (_ = _))

/-- What an accepted sentence is read as -/
def sentenceState (ws : List (Fin 2048)) : State where
  bytes := sentenceBytes ws
  ent := entropyBits ws.length

theorem masked_eq (byte : UInt8) (num : ℕ) :
    masked byte num = byte.toNat / 2 ^ (8 - num) * 2 ^ (8 - num) := by
  apply Nat.eq_of_testBit_eq
  intro j
  have ones : (0xff : ℕ) = 2 ^ 8 - 1 := rfl
  rw [masked, Nat.testBit_and, Nat.testBit_shiftLeft, ones, Nat.testBit_two_pow_sub_one,
    Nat.testBit_mul_two_pow, Nat.testBit_div_two_pow]
  by_cases high : 8 - num ≤ j
  · rw [Nat.sub_add_cancel high]
    by_cases inside : j - (8 - num) < 8
    · simp [high, inside]
    · have none : byte.toNat.testBit j = false := by
        apply Nat.testBit_lt_two_pow
        calc byte.toNat < 2 ^ 8 := UInt8.toNat_lt byte
          _ ≤ 2 ^ j := Nat.pow_le_pow_right (by decide) (by omega)
      simp [none]
  · simp [high]

theorem masked_eq_iff (a b : UInt8) (num : ℕ) : masked a num = masked b num ↔
    a.toNat / 2 ^ (8 - num) = b.toNat / 2 ^ (8 - num) := by
  rw [masked_eq, masked_eq]
  exact Nat.mul_left_inj (Nat.two_pow_pos _).ne'

theorem value_zero : value Buffer.zero = 0 := by
  rw [value, Buffer.zero, List.map_replicate]
  exact numeral_replicate_zero 33

theorem fromSentence_many {ws : List (Fin 2048)} (many : 24 < ws.length) :
    fromSentence hash list (ws.map list.word) = .error ⟨33⟩ := by
  have outside := putWords_outside list (m := { bytes := .zero, ent := 0 }) (k := 0) (V := 0) ws
    (Nat.zero_le 24) (by rw [Nat.zero_add]; exact many) rfl (by rw [value_zero, Nat.zero_mul])
  rw [fromSentence, outside]

theorem fromSentence_few (ws : List (Fin 2048)) (few : ws.length ≤ 24) :
    fromSentence hash list (ws.map list.word) =
      if TrailingBitsMatch hash ws then .ok (some (sentenceState ws)) else .ok none := by
  obtain ⟨bytes, read, held⟩ := putWords_ok list (m := { bytes := .zero, ent := 0 }) (k := 0)
    (V := 0) ws (by rw [Nat.zero_add]; exact few) rfl (by rw [value_zero, Nat.zero_mul])
  rw [Nat.zero_mul, Nat.zero_add, Nat.zero_add, ← value_sentenceBytes few] at held
  have same := value_inj held
  have bits : 11 * (0 + ws.length) - 11 * (0 + ws.length) / 11 / 3 = entropyBits ws.length := by
    rw [Nat.zero_add, Nat.mul_div_cancel_left _ (by decide), entropyBits]
  have inside : entropyBits ws.length / 8 < 33 := by
    rw [entropyBits]
    omega
  rw [fromSentence, read]
  dsimp only
  rw [bits, same, checkChecksum, if_pos inside]
  by_cases agree : TrailingBitsMatch hash ws
  · rw [if_pos agree, decide_eq_true ((masked_eq_iff _ _ _).mpr agree)]
    rfl
  · rw [if_neg agree, decide_eq_false (fun equal => agree ((masked_eq_iff _ _ _).mp equal))]

end Acceptance

section Standard

variable (hash : Hash) (list : WordList)

/-- The words spell the bits of an entropy with the first bits of its hash behind them, one bit for
each three words. -/
def ChecksumMatches (ws : List (Fin 2048)) : Prop :=
  ∃ entropy : List UInt8, 3 * entropy.length = 4 * ws.length ∧
    sentenceValue ws = numeral 256 (entropy.map UInt8.toNat) * 2 ^ (ws.length / 3) +
      ((hash entropy).val.getD 0 0).toNat / 2 ^ (8 - ws.length / 3)

/-- The numbers of words that a sentence is meant to have -/
def Standard (words : ℕ) : Prop :=
  words = 12 ∨ words = 15 ∨ words = 18 ∨ words = 21 ∨ words = 24

theorem Standard.triple {words : ℕ} (standard : Standard words) :
    ∃ k, 4 ≤ k ∧ k ≤ 8 ∧ words = 3 * k ∧ entropyBits words = 32 * k := by
  refine ⟨words / 3, ?_⟩
  rw [entropyBits]
  rcases standard with rfl | rfl | rfl | rfl | rfl <;> decide

theorem value_parts (bytes : Buffer) {k : ℕ} (few : k ≤ 8) :
    numeral 256 ((bytes.val.take (4 * k)).map UInt8.toNat) =
        value bytes / 2 ^ (264 - 33 * k) / 2 ^ k ∧
      (bytes.val.getD (4 * k) 0).toNat / 2 ^ (8 - k) =
        value bytes / 2 ^ (264 - 33 * k) % 2 ^ k := by
  refine ⟨?_, ?_⟩
  · have front := numeral_take (b := 256) (by decide) (byte_lt bytes.val) (4 * k)
    rw [length_map, pow_byte, ← List.map_take] at front
    rw [← front, Nat.div_div_eq_div_mul, ← Nat.pow_add,
      show 264 - 33 * k + k = 8 * (33 - 4 * k) by omega, value]
  · have byte := slice_byte bytes (k := 4 * k) (by omega)
    have part := slice_slice 264 (value bytes) (8 * (4 * k)) (m := 8) (i := 0) (n := k) (by omega)
      (by omega)
    have less : (bytes.val.getD (4 * k) 0).toNat < 2 ^ (8 - 0) := UInt8.toNat_lt _
    rw [byte, Nat.mod_eq_of_lt less, Nat.zero_add] at part
    rw [← part, slice, show 8 * (4 * k) + 0 + k = 33 * k by omega]

theorem sentence_div {ws : List (Fin 2048)} {k : ℕ} (few : k ≤ 8) (length : ws.length = 3 * k) :
    value (sentenceBytes ws) / 2 ^ (264 - 33 * k) = sentenceValue ws := by
  rw [value_sentenceBytes (by omega), length, show 11 * (3 * k) = 33 * k by omega,
    Nat.mul_div_cancel _ (Nat.two_pow_pos _)]

theorem trailingBitsMatch_iff {ws : List (Fin 2048)} (standard : Standard ws.length) :
    TrailingBitsMatch hash ws ↔ ChecksumMatches hash ws := by
  obtain ⟨k, enough, few, length, bits⟩ := standard.triple
  have third : ws.length / 3 = k := by omega
  obtain ⟨front, back⟩ := value_parts (sentenceBytes ws) few
  rw [sentence_div few length] at front back
  rw [TrailingBitsMatch, ChecksumMatches, checksum, bits, third,
    show 32 * k / 8 = 4 * k by omega, Nat.mul_div_cancel_left k (by decide), back]
  constructor
  · intro agree
    refine ⟨(sentenceBytes ws).val.take (4 * k), ?_, ?_⟩
    · rw [List.length_take, (sentenceBytes ws).property]
      omega
    · rw [front, agree, Nat.mul_comm, Nat.div_add_mod]
  · intro spelled
    obtain ⟨entropy, size, equal⟩ := spelled
    have byte : ((hash entropy).val.getD 0 0).toNat < 2 ^ 8 := UInt8.toNat_lt _
    have small : ((hash entropy).val.getD 0 0).toNat / 2 ^ (8 - k) < 2 ^ k := by
      apply Nat.div_lt_of_lt_mul
      rw [← Nat.pow_add, Nat.sub_add_cancel few]
      exact byte
    have upper : sentenceValue ws / 2 ^ k = numeral 256 (entropy.map UInt8.toNat) := by
      rw [equal, Nat.mul_comm, Nat.mul_add_div (Nat.two_pow_pos k), Nat.div_eq_of_lt small,
        Nat.add_zero]
    have lower : sentenceValue ws % 2 ^ k = ((hash entropy).val.getD 0 0).toNat / 2 ^ (8 - k) := by
      rw [equal, Nat.mul_add_mod_self_right, Nat.mod_eq_of_lt small]
    have sizes : (((sentenceBytes ws).val.take (4 * k)).map UInt8.toNat).length =
        (entropy.map UInt8.toNat).length := by
      rw [List.length_map, List.length_map, List.length_take, (sentenceBytes ws).property]
      omega
    have maps := numeral_inj (b := 256) (by decide) sizes (byte_lt _) (byte_lt _) (front.trans upper)
    have bytes : (sentenceBytes ws).val.take (4 * k) = entropy :=
      List.map_injective_iff.mpr (fun _ _ => UInt8.toNat_inj.mp) maps
    rw [bytes, lower]

theorem getWords_eq (bytes : Buffer) {n i : ℕ} (inside : i ≤ n) (few : 11 * n ≤ 264) :
    getWords bytes (11 * n) (11 * i) =
      (List.range' i (n - i)).map fun j => slice 264 (value bytes) (11 * j) 11 := by
  obtain ⟨d, rfl⟩ := Nat.exists_eq_add_of_le inside
  induction d generalizing i with
  | zero => rw [getWords, if_neg (by omega), Nat.add_sub_cancel_left]; rfl
  | succ d ih =>
    have none : 0 = slice 264 (value bytes) (11 * i - 0) 0 := by
      rw [slice, Nat.pow_zero, Nat.mod_one]
    have word := getWord_eq bytes (11 * i) (Nat.zero_le _) (Nat.zero_le _) (by omega) none
    have rest := ih (i := i + 1) (by omega) (by omega)
    rw [show i + 1 + d = i + (d + 1) by omega, show 11 * (i + 1) = 11 * i + 11 by omega,
      show i + (d + 1) - (i + 1) = d by omega] at rest
    rw [getWords, if_pos (by omega), word, rest, show i + (d + 1) - i = d + 1 by omega,
      List.range'_succ, List.map_cons, Nat.sub_zero]

theorem numeral_slices (x : ℕ) {n : ℕ} (few : 11 * n ≤ 264) :
    numeral 2048 ((List.range' 0 n).map fun j => slice 264 x (11 * j) 11) =
      slice 264 x 0 (11 * n) := by
  induction n with
  | zero => rw [Nat.mul_zero, slice, Nat.pow_zero, Nat.mod_one]; rfl
  | succ n ih =>
    have last := slice_add 264 x 0 (11 * n) 11 (by omega)
    rw [List.range'_concat, List.map_append, List.map_singleton, numeral_concat, ih (by omega),
      show 11 * (n + 1) = 11 * n + 11 by omega, last, Nat.one_mul, Nat.zero_add, Nat.zero_add]
    rfl

theorem value_lt (bytes : Buffer) : value bytes < 2 ^ (8 * 33) := by
  have less := numeral_lt (b := 256) (by decide) (byte_lt bytes.val)
  rw [length_map, pow_byte] at less
  exact less

theorem numeral_getWords (bytes : Buffer) {n : ℕ} (few : 11 * n ≤ 264) :
    numeral 2048 (getWords bytes (11 * n) 0) = value bytes / 2 ^ (264 - 11 * n) := by
  have words := getWords_eq bytes (Nat.zero_le n) few
  rw [Nat.mul_zero, Nat.sub_zero] at words
  rw [words, numeral_slices _ few, slice, Nat.zero_add, Nat.mod_eq_of_lt]
  apply Nat.div_lt_of_lt_mul
  rw [← Nat.pow_add, show 264 - 11 * n + 11 * n = 8 * 33 by omega]
  exact value_lt bytes

theorem getWords_lt (bytes : Buffer) {n : ℕ} (few : 11 * n ≤ 264) :
    (getWords bytes (11 * n) 0).length = n ∧ ∀ d ∈ getWords bytes (11 * n) 0, d < 2048 := by
  have words := getWords_eq bytes (Nat.zero_le n) few
  rw [Nat.mul_zero, Nat.sub_zero] at words
  rw [words]
  refine ⟨by rw [List.length_map, List.length_range'], ?_⟩
  intro d mem
  obtain ⟨j, -, rfl⟩ := List.mem_map.mp mem
  exact slice_lt 264 _ _ 11

theorem toSentence_eq (m : State) {k : ℕ} (few : k ≤ 8) (size : m.ent = 32 * k) :
    ∃ ws : List (Fin 2048), ws.length = 3 * k ∧ toSentence list m = ws.map list.word ∧
      sentenceValue ws = value m.bytes / 2 ^ (264 - 33 * k) := by
  have bits : m.ent + m.ent / 32 = 11 * (3 * k) := by omega
  obtain ⟨length, below⟩ := getWords_lt m.bytes (n := 3 * k) (by omega)
  have spelled := numeral_getWords m.bytes (n := 3 * k) (by omega)
  refine ⟨(toIntegers m).map (Fin.ofNat 2048), ?_, ?_, ?_⟩
  · rw [List.length_map, toIntegers, bits, length]
  · rw [toSentence, List.map_map]
    rfl
  · have same : ((toIntegers m).map (Fin.ofNat 2048)).map Fin.val = toIntegers m := by
      rw [List.map_map]
      conv => rhs; rw [← List.map_id (toIntegers m)]
      apply List.map_congr_left
      intro d mem
      rw [toIntegers, bits] at mem
      exact Nat.mod_eq_of_lt (below d mem)
    rw [sentenceValue, same, toIntegers, bits, spelled, show 11 * (3 * k) = 33 * k by omega]

theorem sentence_inj {ws ws' : List (Fin 2048)} (length : ws.length = ws'.length)
    (equal : sentenceValue ws = sentenceValue ws') : ws = ws' := by
  have lengths : (ws.map Fin.val).length = (ws'.map Fin.val).length := by
    rw [List.length_map, List.length_map, length]
  have maps := numeral_inj (b := 2048) (by decide) lengths (word_lt ws) (word_lt ws') equal
  exact List.map_injective_iff.mpr Fin.val_injective maps

theorem toSentence_sentenceState {ws : List (Fin 2048)} (standard : Standard ws.length) :
    toSentence list (sentenceState ws) = ws.map list.word := by
  obtain ⟨k, -, few, length, bits⟩ := standard.triple
  obtain ⟨ws', length', words, spelled⟩ := toSentence_eq list (sentenceState ws) few bits
  have same : sentenceValue ws' = sentenceValue ws := by
    rw [spelled]
    exact sentence_div few length
  rw [words, sentence_inj (by rw [length, length']) same]

end Standard

section RoundTrip

variable (hash : Hash) (list : WordList)

/-- An entropy of one of the five sizes, in bytes -/
def Entropy := {e : List UInt8 // ∃ k, 4 ≤ k ∧ k ≤ 8 ∧ e.length = 4 * k}

theorem Entropy.fits (e : Entropy) : e.val.length ≤ 32 := by
  obtain ⟨k, -, few, length⟩ := e.property
  omega

/-- An entropy comes back from its sentence, whatever the object held before. -/
def Recovers (e : Entropy) : Prop :=
  ∀ m : State, ∃ m', fromSentence hash list (toSentence list (set hash m e.val e.fits)) =
      .ok (some m') ∧ m'.ent = e.val.length * 8 ∧ m'.bytes.val.take e.val.length = e.val

theorem set_parts (m : State) (e : Entropy) {k : ℕ} (few : k ≤ 8) (length : e.val.length = 4 * k) :
    (set hash m e.val e.fits).ent = 32 * k ∧
      (set hash m e.val e.fits).bytes.val.take (4 * k) = e.val ∧
      ((set hash m e.val e.fits).bytes.val.getD (4 * k) 0).toNat / 2 ^ (8 - k) =
        ((hash e.val).val.getD 0 0).toNat / 2 ^ (8 - k) := by
  have place : e.val.length * 8 / 8 = 4 * k := by omega
  have bits : e.val.length * 8 / 32 = k := by omega
  have front : (e.val ++ m.bytes.val.drop e.val.length).take (4 * k) = e.val := by
    rw [← length, List.take_left]
  have inside : 4 * k < (e.val ++ m.bytes.val.drop e.val.length).length := by
    rw [List.length_append, List.length_drop, m.bytes.property]
    omega
  have byte : masked ((hash e.val).val.getD 0 0) k < 2 ^ 8 := by
    rw [masked_eq]
    exact (Nat.div_mul_le_self _ _).trans_lt (UInt8.toNat_lt _)
  refine ⟨?_, ?_, ?_⟩
  · rw [set, addChecksum]
    dsimp only
    omega
  · rw [set, addChecksum, Buffer.set]
    dsimp only
    rw [place, List.take_set_of_le (le_refl _), front]
  · rw [set, addChecksum, Buffer.set, checksum]
    dsimp only
    rw [place, bits, front, List.getD, List.getElem?_set_self inside, Option.getD_some,
      UInt8.toNat_ofNat_of_lt' byte, masked_eq, Nat.mul_div_cancel _ (Nat.two_pow_pos _)]

theorem recovers (e : Entropy) : Recovers hash list e := by
  intro m
  obtain ⟨k, enough, few, length⟩ := e.property
  obtain ⟨size, front, back⟩ := set_parts hash m e few length
  obtain ⟨ws, words, sentence, spelled⟩ :=
    toSentence_eq list (set hash m e.val e.fits) few size
  obtain ⟨entropy, rest⟩ := value_parts (set hash m e.val e.fits).bytes few
  rw [front, ← spelled] at entropy
  rw [back, ← spelled] at rest
  have standard : Standard ws.length := by
    rw [words, Standard]
    omega
  have third : ws.length / 3 = k := by omega
  have agree : ChecksumMatches hash ws := by
    refine ⟨e.val, by omega, ?_⟩
    rw [third, entropy, rest, Nat.mul_comm, Nat.div_add_mod]
  refine ⟨sentenceState ws, ?_, ?_, ?_⟩
  · rw [sentence, fromSentence_few hash list ws (by omega),
      if_pos ((trailingBitsMatch_iff hash standard).mpr agree)]
  · rw [sentenceState, entropyBits, words]
    dsimp only
    omega
  · have parts := (value_parts (sentenceBytes ws) few).1
    rw [sentence_div few words, ← entropy] at parts
    have sizes : (((sentenceBytes ws).val.take (4 * k)).map UInt8.toNat).length =
        (e.val.map UInt8.toNat).length := by
      rw [List.length_map, List.length_map, List.length_take, (sentenceBytes ws).property]
      omega
    have maps := numeral_inj (b := 256) (by decide) sizes (byte_lt _) (byte_lt _) parts
    rw [length]
    exact List.map_injective_iff.mpr (fun _ _ => UInt8.toNat_inj.mp) maps

end RoundTrip

section Claim

variable (hash : Hash) (list : WordList)

/-- What is expected of a list of words of the word list -/
structure Meets (ws : List (Fin 2048)) : Prop where
  /-- A list of a right length is accepted exactly with the checksum. -/
  accepts : Standard ws.length → ((∃ m, fromSentence hash list (ws.map list.word) = .ok (some m)) ↔
    ChecksumMatches hash ws)
  same : Standard ws.length → ∀ m, fromSentence hash list (ws.map list.word) = .ok (some m) →
    toSentence list m = ws.map list.word
  rejects : ¬ Standard ws.length → fromSentence hash list (ws.map list.word) = .ok none

theorem Meets.of_standard {ws : List (Fin 2048)} (standard : Standard ws.length) :
    Meets hash list ws := by
  obtain ⟨k, -, few, length, -⟩ := standard.triple
  have result := fromSentence_few hash list ws (by omega)
  refine ⟨?_, ?_, fun other => absurd standard other⟩
  · intro _
    rw [← trailingBitsMatch_iff hash standard, result]
    by_cases agree : TrailingBitsMatch hash ws
    · rw [if_pos agree]
      exact ⟨fun _ => agree, fun _ => ⟨_, rfl⟩⟩
    · rw [if_neg agree]
      constructor
      · intro accepted
        obtain ⟨m, equal⟩ := accepted
        cases equal
      · intro agreed
        exact absurd agreed agree
  · intro _ m accepted
    rw [result] at accepted
    by_cases agree : TrailingBitsMatch hash ws
    · rw [if_pos agree] at accepted
      cases accepted
      exact toSentence_sentenceState list standard
    · rw [if_neg agree] at accepted
      cases accepted

theorem meets_of_iff (ws : List (Fin 2048)) : Meets hash list ws ↔
    Standard ws.length ∨ (ws.length ≤ 24 ∧ ¬ TrailingBitsMatch hash ws) := by
  constructor
  · intro meets
    by_cases standard : Standard ws.length
    · exact Or.inl standard
    · have rejected := meets.rejects standard
      by_cases few : ws.length ≤ 24
      · rw [fromSentence_few hash list ws few] at rejected
        by_cases agree : TrailingBitsMatch hash ws
        · rw [if_pos agree] at rejected
          cases rejected
        · exact Or.inr ⟨few, agree⟩
      · rw [fromSentence_many hash list (by omega)] at rejected
        cases rejected
  · intro condition
    rcases condition with standard | ⟨few, differ⟩
    · exact Meets.of_standard hash list standard
    · by_cases standard : Standard ws.length
      · exact Meets.of_standard hash list standard
      · refine ⟨fun held => absurd held standard, fun held => absurd held standard, ?_⟩
        intro _
        rw [fromSentence_few hash list ws few, if_neg differ]

/-- Every entropy comes back from its sentence, and the lists of words that are dealt with rightly
are told. -/
theorem sentences_faithful_iff : (∀ e : Entropy, Recovers hash list e) ∧
    ∀ ws : List (Fin 2048), Meets hash list ws ↔
      Standard ws.length ∨ (ws.length ≤ 24 ∧ ¬ TrailingBitsMatch hash ws) :=
  ⟨recovers hash list, meets_of_iff hash list⟩

theorem single_word_matches (w : Fin 2048) : TrailingBitsMatch hash [w] := by
  have upper : ∀ b : UInt8, b.toNat / 2 ^ 8 = 0 := fun b =>
    Nat.div_eq_of_lt (UInt8.toNat_lt b)
  have bits : entropyBits [w].length / 32 = 0 := by
    rw [List.length_singleton]
    decide
  rw [TrailingBitsMatch, bits, Nat.sub_zero, upper, upper]

/-- Words that are told by their lengths -/
def sampleList : WordList where
  word i := String.ofList (List.replicate i.val 'a')
  distinct := by
    intro i j equal
    have lengths := congrArg (fun s : String => s.toList.length) equal
    simp only [String.toList_ofList, List.length_replicate] at lengths
    exact Fin.ext lengths

def sampleHash : Hash := fun _ => ⟨List.replicate 32 0, List.length_replicate⟩

theorem single_word_accepted : ¬ Meets sampleHash sampleList [0] := by
  intro meets
  have accepted := fromSentence_few sampleHash sampleList [0] (by decide)
  rw [if_pos (single_word_matches sampleHash 0)] at accepted
  have rejected := meets.rejects (by unfold Standard; decide)
  rw [accepted] at rejected
  cases rejected

end Claim




end Epilog.Ec.Mnemonic
