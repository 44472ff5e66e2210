/- Module: Epilog/Ec/PasswordEncryption
   source: src/src/ec/builtins.cpp (encrypt, decrypt)
   digest: Terms sealed in a bignum under a password, and what is opened again. -/

import Epilog.Common.Aes256
import Epilog.Common.BigNumbers
import Epilog.Common.KeyedDigest
import Mathlib.Data.List.GetD

set_option autoImplicit false

namespace Epilog.Ec.PasswordEncryption

open Epilog.Common.Aes256 Epilog.Common.BigBytes Epilog.Common.BigNumbers Epilog.Common.KeyedDigest
open Epilog.Common.Sha2
open Epilog.Lib.ByteLanes (loadBytes length_loadBytes loadBytes_storeBytes setWidth_storeBytes
  storeBytes_of_not_mem)

section Source

/-- The first argument of the key generator, `"encrypted"` -/
def salt : List UInt8 := [101, 110, 99, 114, 121, 112, 116, 101, 100]

/-- The memory that the objects of a call are made in -/
structure Stack where
  hash : Sha256.State
  keygen : Hmac sha512
  inner : sha512.State
  key : Vector UInt8 64

/-- The round keys from the first 32 bytes of the derived key -/
def keyFrom (stack : Stack) (passwd : List UInt8) (iter : UInt64) : Option (List UInt8) := do
  let key ← set_password stack.inner stack.keygen salt iter 64 stack.key passwd
  return keyExpansion (key.toList.take 32)

/-- The loop that appends zeros and counts them -/
def pushZeros (buf : List UInt8) (pad_n num_zeros : ℕ) : List UInt8 × ℕ :=
  if 16 < pad_n then pushZeros (buf ++ [0]) (pad_n - 1) (num_zeros + 1) else (buf, num_zeros)

def checksum (stack : Stack) (bytes : List UInt8) : List UInt8 :=
  Sha256.finalize (Sha256.update (Sha256.init stack.hash) bytes)

/-- The buffer as `encrypt` fills it up: zeros, how many, and the start of the checksum -/
def fillUp (stack : Stack) (buf : List UInt8) : List UInt8 :=
  let pad_n := 16 - buf.length % 16
  let pad_n := if pad_n < 16 then pad_n + 16 else pad_n
  let (buf, num_zeros) := pushZeros buf pad_n 0
  buf ++ UInt8.ofNat num_zeros :: (checksum stack buf).take 15

/-- The `iv_` of a new cipher -/
def noIv : State := Vector.replicate 16 0

/-- `encrypt` of the bytes that the serializer writes: the bignum, and the heap with it -/
def encrypt (stack : Stack) (m : Memory) (buf passwd : List UInt8) (iter : UInt64) :
    Option (ℕ × Memory) := do
  let roundKey ← keyFrom stack passwd iter
  let (buf, _) ← cbcEncrypt roundKey noIv (fillUp stack buf)
  let (big, m) := newBigCells m (8 * buf.length)
  let m ← setBig m big buf
  return (big, m)

/-- The end of `decrypt`, on the decrypted buffer: what the serializer is to read, if the password
was right -/
def accept (stack : Stack) (buf : List UInt8) : Option (List UInt8 × ℕ) :=
  if (checksum stack (buf.take (buf.length - 16))).take 15 ≠ buf.drop (buf.length - 15) then none
  else
    let num_zeros := (buf.getD (buf.length - 16) 0).toNat
    if 16 < num_zeros then none else some (buf, buf.length - 16 - num_zeros)

/-- `decrypt` of a bignum; an error is a wrong argument with its text. -/
def decrypt (stack : Stack) (m : Memory) (big : ℕ) (roundKey : List UInt8) :
    Option (Except String (Option (List UInt8 × ℕ))) := do
  let num_bits := numBits m big
  if num_bits % 128 ≠ 0 then
    return .error ("encrypt/4: Inner argument of input must be a big number in multiples of 128 " ++
      "bits; was " ++ toString num_bits)
  let num_bytes := num_bits / 8
  let (buf, _) ← getBig m big num_bytes
  if num_bytes < 32 then
    return .error ("encrypt/4: Inner argument has too few bytes, must be at least 32 bytes or " ++
      "more; wss " ++ toString (num_bits / 8))
  let (buf, _) ← cbcDecrypt roundKey noIv buf
  return .ok (accept stack buf)

end Source

section Sealing

variable {stack : Stack}

theorem pushZeros_eq (buf : List UInt8) (pad_n num_zeros : ℕ) :
    pushZeros buf pad_n num_zeros =
      (buf ++ List.replicate (pad_n - 16) 0, num_zeros + (pad_n - 16)) := by
  fun_induction pushZeros buf pad_n num_zeros with
  | case1 buf pad_n num_zeros more ih =>
    obtain ⟨k, rfl⟩ := Nat.exists_eq_add_of_lt more
    rw [ih, show 16 + k + 1 - 1 - 16 = k by omega, show 16 + k + 1 - 16 = k + 1 by omega,
      List.append_assoc, List.singleton_append, ← List.replicate_succ, Nat.add_assoc,
      Nat.add_comm 1]
  | case2 buf pad_n num_zeros done =>
    rw [Nat.sub_eq_zero_of_le (Nat.le_of_not_lt done), List.replicate_zero, List.append_nil,
      Nat.add_zero]

theorem checksum_eq (stack : Stack) {bytes : List UInt8} (short : bytes.length < 2 ^ 32) :
    checksum stack bytes = Sha256.standard bytes :=
  Sha256.finalize_reads (Sha256.update_reads _ [] bytes (Sha256.init_reads stack.hash)) short

theorem length_take_standard (bytes : List UInt8) :
    ((Sha256.standard bytes).take 15).length = 15 := by
  simp [Sha256.standard, Words.toList]

/-- The number of zeros behind `n` bytes -/
def zerosFor (n : ℕ) : ℕ := (16 - n % 16) % 16

/-- The bytes with their zeros, and the last block -/
def sealed (buf : List UInt8) : List UInt8 :=
  let front := buf ++ List.replicate (zerosFor buf.length) 0
  front ++ UInt8.ofNat (zerosFor buf.length) :: (Sha256.standard front).take 15

theorem fillUp_eq (stack : Stack) {buf : List UInt8} (short : buf.length < 2 ^ 26) :
    fillUp stack buf = sealed buf := by
  have count : (if 16 - buf.length % 16 < 16 then 16 - buf.length % 16 + 16
      else 16 - buf.length % 16) - 16 = zerosFor buf.length := by
    unfold zerosFor
    split_ifs <;> omega
  unfold fillUp sealed
  simp only [pushZeros_eq, count, Nat.zero_add]
  rw [checksum_eq stack]
  rw [List.length_append, List.length_replicate, zerosFor]
  omega

theorem length_sealed (buf : List UInt8) :
    (sealed buf).length = buf.length + zerosFor buf.length + 16 := by
  unfold sealed
  dsimp only
  rw [List.length_append, List.length_append, List.length_replicate, List.length_cons,
    length_take_standard]

/-- What is behind the front is the number of zeros, which is small, and the checksum. -/
theorem accept_eq_some_iff (stack : Stack) {buf : List UInt8} (enough : 32 ≤ buf.length)
    (short : buf.length < 2 ^ 32) (r : List UInt8 × ℕ) :
    accept stack buf = some r ↔ ∃ (front : List UInt8) (num_zeros : UInt8), num_zeros ≤ 16 ∧
      buf = front ++ num_zeros :: (Sha256.standard front).take 15 ∧
      r = (buf, front.length - num_zeros.toNat) := by
  have whole : buf = buf.take (buf.length - 16) ++
      buf.getD (buf.length - 16) 0 :: buf.drop (buf.length - 15) := by
    have inside : buf.length - 16 < buf.length := by omega
    rw [List.getD_eq_getElem _ _ inside, show buf.length - 15 = buf.length - 16 + 1 by omega,
      ← List.drop_eq_getElem_cons inside, List.take_append_drop]
  have front : (buf.take (buf.length - 16)).length = buf.length - 16 := by
    rw [List.length_take]
    omega
  unfold accept
  dsimp only
  rw [checksum_eq stack (by omega)]
  constructor
  · intro accepted
    split_ifs at accepted with same few
    exact ⟨buf.take (buf.length - 16), buf.getD (buf.length - 16) 0,
      UInt8.le_iff_toNat_le.2 (Nat.le_of_not_lt few), by rw [not_not.1 same, ← whole],
      by rw [front]; exact (Option.some.inj accepted).symm⟩
  · rintro ⟨front, num_zeros, few, shape, rfl⟩
    have tail := length_take_standard front
    have length := congrArg List.length shape
    rw [List.length_append, List.length_cons, tail] at length
    have place : buf.length - 16 = front.length := by omega
    rw [show buf.length - 15 = front.length + 1 by omega, place, shape, List.take_left' rfl,
      List.drop_append, List.drop_eq_nil_of_le (Nat.le_succ _), Nat.add_sub_cancel_left,
      List.drop_one, List.tail_cons, List.nil_append, if_neg (not_not.2 rfl),
      List.getD_append_right _ _ _ _ le_rfl, Nat.sub_self, List.getD_cons_zero,
      if_neg (show ¬ 16 < num_zeros.toNat from Nat.not_lt.2 (UInt8.le_iff_toNat_le.1 few))]

end Sealing

section Opening

/-- The round keys for a password, whatever the objects are made in -/
theorem keyFrom_eq (stack : Stack) {passwd : List UInt8} {iter : UInt64}
    (short : passwd.length < 2 ^ 61) (some_ : 0 < iter) : keyFrom stack passwd iter =
      some (keyExpansion ((derived sha512 passwd salt iter.toNat 64).take 32)) := by
  obtain ⟨key, made, same⟩ := derived_of_room (H := sha512) stack.inner
    stack.keygen stack.key 64 short (show _ + salt.length + 4 < _ by decide) some_ (by decide)
  refine Option.bind_eq_some_iff.2 ⟨key, made, ?_⟩
  rw [← same, List.take_take]
  rfl

/-- A bignum of two blocks or more is read as a whole, and decrypted. -/
theorem decrypt_eq (stack : Stack) {m : Memory} {big : ℕ} (roundKey : List UInt8)
    (fits : big + numCells m big ≤ m.size) (space : m.size < 2 ^ 61)
    (blocks : numBits m big % 128 = 0) (enough : 256 ≤ numBits m big) :
    decrypt stack m big roundKey =
      (cbcDecrypt roundKey noIv (loadBytes m.word (8 * big + 4) (numBytes m big))).map
        fun p => .ok (accept stack p.1) := by
  have cells := numCells_eq m big
  have bytes : numBits m big / 8 = numBytes m big := by
    unfold numBytes
    omega
  have whole : numBytes m big % 16 = 0 := by omega
  obtain ⟨m', got, -⟩ := getBig_eq (rfl : numBytes m big = _) (by omega) space
    (fun spills => by have := spills.1; omega) (by omega)
  unfold decrypt
  simp only [blocks, bytes, got, ne_eq, not_true_eq_false, if_false, Option.bind_eq_bind,
    Option.bind_some, if_neg (show ¬ numBytes m big < 32 by omega)]
  exact (Option.map_eq_bind ..).symm

/-- What is opened is exactly what was encrypted with these round keys as a front with a small
number of zeros and the checksum of the front behind it. -/
theorem opened_iff (stack : Stack) {m : Memory} {big : ℕ} (roundKey : List UInt8)
    (fits : big + numCells m big ≤ m.size) (space : m.size < 2 ^ 61)
    (blocks : numBits m big % 128 = 0) (enough : 256 ≤ numBits m big) (r : List UInt8 × ℕ) :
    decrypt stack m big roundKey = some (.ok (some r)) ↔
      ∃ (front : List UInt8) (num_zeros : UInt8) (last : State), num_zeros ≤ 16 ∧
        cbcEncrypt roundKey noIv (front ++ num_zeros :: (Sha256.standard front).take 15) =
          some (loadBytes m.word (8 * big + 4) (numBytes m big), last) ∧
        r = (front ++ num_zeros :: (Sha256.standard front).take 15,
          front.length - num_zeros.toNat) := by
  have small : numBits m big < 2 ^ 29 := Nat.mod_lt _ (by norm_num)
  rw [decrypt_eq stack roundKey fits space blocks enough, Option.map_eq_some_iff]
  have sized : 32 ≤ numBytes m big ∧ numBytes m big < 2 ^ 32 := by
    unfold numBytes
    omega
  constructor
  · rintro ⟨⟨buf, last⟩, decrypted, accepted⟩
    have back := cbcEncrypt_cbcDecrypt noIv _ decrypted
    have length := length_cbcEncrypt noIv buf back
    rw [length_loadBytes] at length
    rw [length] at sized
    obtain ⟨front, num_zeros, few, rfl, rfl⟩ :=
      (accept_eq_some_iff stack sized.1 sized.2 r).1 (Except.ok.inj accepted)
    exact ⟨front, num_zeros, last, few, back, rfl⟩
  · rintro ⟨front, num_zeros, last, few, encrypted, rfl⟩
    have length := length_cbcEncrypt noIv _ encrypted
    rw [length_loadBytes] at length
    rw [length] at sized
    exact ⟨_, cbcDecrypt_cbcEncrypt noIv _ encrypted, congrArg Except.ok
      ((accept_eq_some_iff stack sized.1 sized.2 _).2 ⟨front, num_zeros, few, rfl, rfl⟩)⟩

/-- Objects that are made in cleared memory -/
def cleared : Stack :=
  ⟨⟨Sha256.start, Vector.replicate 64 0, 0⟩, ⟨blank, []⟩, blank, Vector.replicate 64 0⟩

/-- A heap of bignums of two blocks, each of which overlaps the next -/
def headers : Memory := ⟨fun _ => bigHeader 256, 100, []⟩

theorem opened_headers : decrypt cleared headers 0 [] = some (.ok (some ([], 0))) ↔
    ∃ (front : List UInt8) (num_zeros : UInt8) (last : State), num_zeros ≤ 16 ∧
      cbcEncrypt [] noIv (front ++ num_zeros :: (Sha256.standard front).take 15) =
        some (loadBytes headers.word (8 * 0 + 4) (numBytes headers 0), last) ∧
      ([], 0) = (front ++ num_zeros :: (Sha256.standard front).take 15,
        front.length - num_zeros.toNat) :=
  opened_iff cleared [] (by decide) (by decide) (by decide) (by decide) ([], 0)

/-- What is encrypted under a password in a new bignum is opened with the same password, for any
objects. -/
theorem decrypt_encrypt (stack stack' : Stack) (m : Memory) (buf passwd : List UInt8)
    (iter : UInt64) (some_ : buf ≠ []) (short : buf.length ≤ 2 ^ 26 - 32)
    (space : m.size < 2 ^ 60) (password : passwd.length < 2 ^ 61) (repeats : 0 < iter) :
    ∃ (big : ℕ) (m' : Memory) (roundKey bytes : List UInt8),
      encrypt stack m buf passwd iter = some (big, m') ∧ (∀ a < m.size, m'.word a = m.word a) ∧
      keyFrom stack' passwd iter = some roundKey ∧ bytes.take buf.length = buf ∧
      decrypt stack' m' big roundKey = some (.ok (some (bytes, buf.length))) := by
  have key := fun stack => keyFrom_eq stack password repeats
  revert key
  generalize keyExpansion ((derived sha512 passwd salt iter.toNat 64).take 32) = roundKey
  intro key
  have pos := List.length_pos_iff.2 some_
  have zeros : (buf.length + zerosFor buf.length) % 16 = 0 ∧ zerosFor buf.length < 16 := by
    unfold zerosFor
    omega
  have length := length_sealed buf
  obtain ⟨c, last, encrypted, same⟩ := @cbcEncrypt_whole roundKey noIv (sealed buf)
    (by omega)
  have size := newBigCells_size m c.length
  have count := numBytes_newBigCells m (show 8 * c.length < 2 ^ 29 by omega)
  have bits := numBits_newBigCells m (8 * c.length)
  obtain ⟨m', set, done⟩ := setBig_eq (m := (newBigCells m (8 * c.length)).2)
    count.symm (by omega) (fun spills => by have := spills.1; omega)
  have header : numBits m' m.size = 8 * c.length := by
    rw [numBits_congr (m := (newBigCells m (8 * c.length)).2), bits, Nat.mod_eq_of_lt (by omega)]
    rw [done.word_eq]
    exact setWidth_storeBytes _ 4 (by norm_num) le_rfl c
  have bytes : numBytes m' m.size = c.length := by
    unfold numBytes
    omega
  have stored : loadBytes m'.word (8 * m.size + 4) (numBytes m' m.size) = c := by
    rw [bytes, done.word_eq, loadBytes_storeBytes]
  refine ⟨m.size, m', roundKey, sealed buf, ?_, fun a before => ?_, key stack', ?_, ?_⟩
  · unfold encrypt
    rw [key, fillUp_eq stack (by omega)]
    simp only [Option.bind_eq_bind, Option.bind_some, encrypted]
    exact Option.bind_eq_some_iff.2 ⟨m', set, rfl⟩
  · rw [done.word_eq, storeBytes_of_not_mem _ fun i less => by omega]
    unfold newBigCells
    dsimp only
    rw [if_neg before.ne, if_neg fun behind => absurd behind.1 (by omega)]
  · unfold sealed
    dsimp only
    rw [List.append_assoc, List.take_left' rfl]
  · rw [decrypt_eq stack' roundKey (by rw [numCells_eq, bytes, done.size_eq]; omega)
      (by rw [done.size_eq]; omega) (by omega) (by omega), stored,
      cbcDecrypt_cbcEncrypt noIv _ encrypted]
    change some (Except.ok (accept stack' (sealed buf))) = _
    refine congrArg (fun r => some (Except.ok r)) ((accept_eq_some_iff stack' (by omega) (by omega)
      (sealed buf, buf.length)).2 ⟨buf ++ List.replicate (zerosFor buf.length) 0,
        UInt8.ofNat (zerosFor buf.length), ?_, rfl, ?_⟩)
    · rw [UInt8.le_iff_toNat_le, UInt8.toNat_ofNat']
      exact (Nat.mod_le _ _).trans zeros.2.le
    · rw [UInt8.toNat_ofNat', Nat.mod_eq_of_lt (by omega), List.length_append,
        List.length_replicate, Nat.add_sub_cancel]

theorem decrypt_encrypt_byte : ∃ (big : ℕ) (m' : Memory) (roundKey bytes : List UInt8),
    encrypt cleared headers [7] [112] 1 = some (big, m') ∧
    (∀ a < headers.size, m'.word a = headers.word a) ∧
    keyFrom cleared [112] 1 = some roundKey ∧ bytes.take [(7 : UInt8)].length = [7] ∧
    decrypt cleared m' big roundKey = some (.ok (some (bytes, [(7 : UInt8)].length))) :=
  decrypt_encrypt cleared cleared headers [7] [112] 1 (by decide) (by decide) (by decide)
    (by decide) (by decide)

end Opening

end Epilog.Ec.PasswordEncryption
