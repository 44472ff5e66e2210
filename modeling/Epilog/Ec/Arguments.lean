/- Module: Epilog/Ec/Arguments
   source: src/src/ec/builtins.cpp (get_bignum, new_bignum, get_private_key, get_public_key)
   digest: The arguments of the builtins for keys, and the bytes that are read from bignums. -/

import Epilog.Ec.KeyDerivation

set_option autoImplicit false

namespace Epilog.Ec.Arguments

open Epilog.Ec.KeyDerivation

section Terms

/-- A bignum, with its bits in whole bytes -/
structure Big where
  bits : ℕ
  bytes : List UInt8
  whole : bytes.length = (bits + 7) / 8

/-- Terms, as far as the builtins tell them apart -/
inductive Arg
  | ref
  | int (value : ℤ)
  | big (big : Big)
  | list (elements : List Arg)
  | str (functor : String) (args : List Arg)
  | other (text : String)

def newBignum {n : ℕ} (bytes : Bytes n) : Arg :=
  .big ⟨n * 8, bytes.val, by rw [bytes.property]; omega⟩

/-- `get_bignum` into `n` bytes, all of which the caller wants: a small integer gives only eight,
and no caller wants so few. -/
def getBignum (n : ℕ) : Arg → Option (Bytes n)
  | .big b => if all : (b.bits + 7) / 8 = n then some ⟨b.bytes, by rw [b.whole, all]⟩ else none
  | _ => none

def getPublicKey : Arg → Option (Bytes 33)
  | .big b =>
    if size : b.bits = 8 + 256 then
      if b.bytes.head? = some 0x02 ∨ b.bytes.head? = some 0x03 then
        some ⟨b.bytes, by rw [b.whole, size]⟩
      else none
    else none
  | _ => none

/-- `get_private_key`: the key alone, between its marks, or with a checksum after these -/
def getPrivateKey (checksum : List UInt8 → Bytes 4) : Arg → Option (Bytes 32)
  | .big b =>
    if plain : b.bits = 256 then some ⟨b.bytes, by rw [b.whole, plain]⟩
    else if marked : b.bits = 8 + 256 + 8 ∨ b.bits = 8 + 256 + 8 + 32 then
      if b.bytes.head? ≠ some 0x80 ∨ b.bytes[33]? ≠ some 0x01 then none
      else if b.bits = 8 + 256 + 8 + 32 ∧
          (b.bytes.drop 34).take 4 ≠ (checksum (b.bytes.take 34)).val then none
      else some ⟨(b.bytes.drop 1).take 32, by
        rw [List.length_take, List.length_drop, b.whole]
        omega⟩
    else none
  | _ => none

/-- The unification of an argument with a new bignum -/
def unifyBig {n : ℕ} (bytes : Bytes n) : Arg → Bool
  | .ref => true
  | .big b => b.bits = n * 8 ∧ b.bytes = bytes.val
  | _ => false

theorem getBignum_newBignum {n : ℕ} (bytes : Bytes n) :
    getBignum n (newBignum bytes) = some bytes := by
  have all : (n * 8 + 7) / 8 = n := by omega
  rw [newBignum, getBignum, dif_pos all]

end Terms

end Epilog.Ec.Arguments
