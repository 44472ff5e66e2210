/- Module: Epilog/Common/Aes256
   source: src/src/common/aes256.hpp, src/src/common/aes256.cpp
   digest: AES-256 in CBC mode, which is inverted by its decryption. -/

import Epilog.Common.QuotedText
import Mathlib.Data.Fintype.Pi

set_option autoImplicit false

namespace Epilog.Common.Aes256

open Epilog.Common.QuotedText (forall_byte)

section Source

def sbox : List UInt8 :=
  [99, 124, 119, 123, 242, 107, 111, 197, 48, 1, 103, 43, 254, 215, 171, 118, 202, 130, 201, 125,
    250, 89, 71, 240, 173, 212, 162, 175, 156, 164, 114, 192, 183, 253, 147, 38, 54, 63, 247, 204,
    52, 165, 229, 241, 113, 216, 49, 21, 4, 199, 35, 195, 24, 150, 5, 154, 7, 18, 128, 226, 235,
    39, 178, 117, 9, 131, 44, 26, 27, 110, 90, 160, 82, 59, 214, 179, 41, 227, 47, 132, 83, 209,
    0, 237, 32, 252, 177, 91, 106, 203, 190, 57, 74, 76, 88, 207, 208, 239, 170, 251, 67, 77, 51,
    133, 69, 249, 2, 127, 80, 60, 159, 168, 81, 163, 64, 143, 146, 157, 56, 245, 188, 182, 218,
    33, 16, 255, 243, 210, 205, 12, 19, 236, 95, 151, 68, 23, 196, 167, 126, 61, 100, 93, 25, 115,
    96, 129, 79, 220, 34, 42, 144, 136, 70, 238, 184, 20, 222, 94, 11, 219, 224, 50, 58, 10, 73,
    6, 36, 92, 194, 211, 172, 98, 145, 149, 228, 121, 231, 200, 55, 109, 141, 213, 78, 169, 108,
    86, 244, 234, 101, 122, 174, 8, 186, 120, 37, 46, 28, 166, 180, 198, 232, 221, 116, 31, 75,
    189, 139, 138, 112, 62, 181, 102, 72, 3, 246, 14, 97, 53, 87, 185, 134, 193, 29, 158, 225,
    248, 152, 17, 105, 217, 142, 148, 155, 30, 135, 233, 206, 85, 40, 223, 140, 161, 137, 13, 191,
    230, 66, 104, 65, 153, 45, 15, 176, 84, 187, 22]

def rsbox : List UInt8 :=
  [82, 9, 106, 213, 48, 54, 165, 56, 191, 64, 163, 158, 129, 243, 215, 251, 124, 227, 57, 130,
    155, 47, 255, 135, 52, 142, 67, 68, 196, 222, 233, 203, 84, 123, 148, 50, 166, 194, 35, 61,
    238, 76, 149, 11, 66, 250, 195, 78, 8, 46, 161, 102, 40, 217, 36, 178, 118, 91, 162, 73, 109,
    139, 209, 37, 114, 248, 246, 100, 134, 104, 152, 22, 212, 164, 92, 204, 93, 101, 182, 146,
    108, 112, 72, 80, 253, 237, 185, 218, 94, 21, 70, 87, 167, 141, 157, 132, 144, 216, 171, 0,
    140, 188, 211, 10, 247, 228, 88, 5, 184, 179, 69, 6, 208, 44, 30, 143, 202, 63, 15, 2, 193,
    175, 189, 3, 1, 19, 138, 107, 58, 145, 17, 65, 79, 103, 220, 234, 151, 242, 207, 206, 240,
    180, 230, 115, 150, 172, 116, 34, 231, 173, 53, 133, 226, 249, 55, 232, 28, 117, 223, 110, 71,
    241, 26, 113, 29, 41, 197, 137, 111, 183, 98, 14, 170, 24, 190, 27, 252, 86, 62, 75, 198, 210,
    121, 32, 154, 219, 192, 254, 120, 205, 90, 244, 31, 221, 168, 51, 136, 7, 199, 49, 177, 18,
    16, 89, 39, 128, 236, 95, 96, 81, 127, 169, 25, 181, 74, 13, 45, 229, 122, 159, 147, 201, 156,
    239, 160, 224, 59, 77, 174, 42, 245, 176, 200, 235, 187, 60, 131, 83, 153, 97, 23, 43, 4, 126,
    186, 119, 214, 38, 225, 105, 20, 99, 85, 33, 12, 125]

def Rcon : List UInt8 := [141, 1, 2, 4, 8, 16, 32, 64, 128, 27, 54]

def substitute (table : List UInt8) (b : UInt8) : UInt8 := table.getD b.toNat 0

/-- A round of `key_expansion`: the next four bytes of the round keys -/
def nextWord (roundKey : List UInt8) (i : ℕ) : List UInt8 :=
  let byte (j : ℕ) : UInt8 := roundKey.getD j 0
  let tempa := (List.range 4).map fun k => byte ((i - 1) * 4 + k)
  let tempa :=
    if i % 8 = 0 then
      -- `RotWord` and `SubWord`
      let tempa := (tempa.drop 1 ++ tempa.take 1).map (substitute sbox)
      tempa.modify 0 (· ^^^ Rcon.getD (i / 8) 0)
    else if i % 8 = 4 then tempa.map (substitute sbox)
    else tempa
  (List.range 4).map fun k => byte ((i - 8) * 4 + k) ^^^ tempa.getD k 0

def keyExpansion (key : List UInt8) : List UInt8 :=
  (List.range' 8 52).foldl (fun roundKey i => roundKey ++ nextWord roundKey i) (key.take 32)

/-- `state_`, the bytes of a block column by column -/
abbrev State := Vector UInt8 16

/-- `state_[i][j]` -/
def State.cell (s : State) (i j : Fin 4) : UInt8 := s[4 * i.val + j.val]

def ofCells (f : Fin 4 → Fin 4 → UInt8) : State :=
  Vector.ofFn fun k => f ⟨k / 4, by omega⟩ ⟨k % 4, by omega⟩

variable (roundKey : List UInt8)

def addRoundKey (round : ℕ) (s : State) : State :=
  ofCells fun i j => s.cell i j ^^^ roundKey.getD (round * 16 + i * 4 + j) 0

def subBytes (s : State) : State := ofCells fun i j => substitute sbox (s.cell i j)

def invSubBytes (s : State) : State := ofCells fun i j => substitute rsbox (s.cell i j)

/-- `shift_rows`: row `j` is rotated by `j` columns to the left. -/
def shiftRows (s : State) : State := ofCells fun i j => s.cell (i + j) j

def invShiftRows (s : State) : State := ofCells fun i j => s.cell (i - j) j

/-- `y >> k & 1` -/
def bit (y k : UInt8) : UInt8 := (y >>> k) &&& 1

def xtime (x : UInt8) : UInt8 := (x <<< 1) ^^^ (bit x 7 * 0x1b)

def mixColumns (s : State) : State := ofCells fun i j =>
  s.cell i j ^^^ (xtime (s.cell i j ^^^ s.cell i (j + 1)) ^^^
    (s.cell i 0 ^^^ s.cell i 1 ^^^ s.cell i 2 ^^^ s.cell i 3))

def multiply (x y : UInt8) : UInt8 :=
  (bit y 0 * x) ^^^ (bit y 1 * xtime x) ^^^ (bit y 2 * xtime (xtime x)) ^^^
    (bit y 3 * xtime (xtime (xtime x))) ^^^ (bit y 4 * xtime (xtime (xtime (xtime x))))

def invMixColumns (s : State) : State := ofCells fun i j =>
  multiply (s.cell i j) 0x0e ^^^ multiply (s.cell i (j + 1)) 0x0b ^^^
    multiply (s.cell i (j + 2)) 0x0d ^^^ multiply (s.cell i (j + 3)) 0x09

/-- The body of the loop of `encrypt_block` -/
def encryptRound (s : State) (round : ℕ) : State :=
  addRoundKey roundKey round (mixColumns (shiftRows (subBytes s)))

def encryptBlock (block : State) : State :=
  let s := (List.range' 1 13).foldl (encryptRound roundKey) (addRoundKey roundKey 0 block)
  addRoundKey roundKey 14 (shiftRows (subBytes s))

/-- The body of the loop of `decrypt_block` -/
def decryptRound (round : ℕ) (s : State) : State :=
  invMixColumns (addRoundKey roundKey round (invSubBytes (invShiftRows s)))

def decryptBlock (block : State) : State :=
  let s := (List.range' 1 13).foldr (decryptRound roundKey) (addRoundKey roundKey 14 block)
  addRoundKey roundKey 0 (invSubBytes (invShiftRows s))

def xorWithIv (buf iv : State) : State := Vector.zipWith (· ^^^ ·) buf iv

/-- Sixteen bytes of a buffer; what lies behind its end is not to be read. -/
def load (bytes : List UInt8) : Option State :=
  if h : (bytes.take 16).length = 16 then some ⟨(bytes.take 16).toArray, by simpa using h⟩ else none

/-- `cbc_encrypt` with `iv_`, and what that is then -/
def cbcEncrypt (iv : State) (buf : List UInt8) : Option (List UInt8 × State) :=
  if _ : 0 < buf.length then do
    let block ← load buf
    let c := encryptBlock roundKey (xorWithIv block iv)
    let (rest, last) ← cbcEncrypt c (buf.drop 16)
    return (c.toList ++ rest, last)
  else some ([], iv)
termination_by buf.length
decreasing_by
  rw [List.length_drop]
  omega

/-- `cbc_decrypt` with `iv_`, and what that is then -/
def cbcDecrypt (iv : State) (buf : List UInt8) : Option (List UInt8 × State) :=
  if _ : 0 < buf.length then do
    let block ← load buf
    let (rest, last) ← cbcDecrypt block (buf.drop 16)
    return ((xorWithIv (decryptBlock roundKey block) iv).toList ++ rest, last)
  else some ([], iv)
termination_by buf.length
decreasing_by
  rw [List.length_drop]
  omega

end Source

section Inverse

variable {roundKey : List UInt8} {s t : State}

theorem cell_ofCells (f : Fin 4 → Fin 4 → UInt8) (i j : Fin 4) : (ofCells f).cell i j = f i j := by
  unfold State.cell ofCells
  rw [Vector.getElem_ofFn]
  congr 1 <;> ext <;> simp only [] <;> omega

theorem ext_cell (same : ∀ i j, s.cell i j = t.cell i j) : s = t := by
  refine Vector.ext fun k inside => ?_
  have cell := same ⟨k / 4, by omega⟩ ⟨k % 4, by omega⟩
  unfold State.cell at cell
  simpa only [Nat.div_add_mod] using cell

theorem inv_substitute (b : UInt8) : substitute rsbox (substitute sbox b) = b := by
  revert b
  exact forall_byte (by decide +kernel)

theorem invSubBytes_subBytes (s : State) : invSubBytes (subBytes s) = s := ext_cell fun i j => by
  unfold invSubBytes subBytes
  rw [cell_ofCells, cell_ofCells, inv_substitute]

theorem invShiftRows_shiftRows (s : State) : invShiftRows (shiftRows s) = s :=
  ext_cell fun i j => by
  have back : ∀ i j : Fin 4, i - j + j = i := by decide
  unfold invShiftRows shiftRows
  rw [cell_ofCells, cell_ofCells, back]

theorem xor_cancel (x y : UInt8) : x ^^^ (x ^^^ y) = y := by
  rw [← UInt8.xor_assoc, UInt8.xor_self, UInt8.zero_xor]

theorem xor_left_comm (x y z : UInt8) : x ^^^ (y ^^^ z) = y ^^^ (x ^^^ z) := by
  rw [← UInt8.xor_assoc, UInt8.xor_comm x y, UInt8.xor_assoc]

theorem addRoundKey_twice (round : ℕ) (s : State) :
    addRoundKey roundKey round (addRoundKey roundKey round s) = s := ext_cell fun i j => by
  unfold addRoundKey
  rw [cell_ofCells, cell_ofCells, UInt8.xor_assoc, UInt8.xor_self, UInt8.xor_zero]

/-- Doubling in the field is linear. -/
theorem xtime_xor (x y : UInt8) : xtime (x ^^^ y) = xtime x ^^^ xtime y := by
  have bit_xor : bit (x ^^^ y) 7 = bit x 7 ^^^ bit y 7 := by
    unfold bit
    rw [UInt8.shiftRight_xor, ← UInt8.toBitVec_inj]
    ext i
    simp [Bool.and_xor_distrib_right]
  have bit_cases : ∀ x, bit x 7 = 0 ∨ bit x 7 = 1 := forall_byte (by decide +kernel)
  unfold xtime
  rw [UInt8.shiftLeft_xor, bit_xor]
  rcases bit_cases x with hx | hx <;> rcases bit_cases y with hy | hy <;>
    simp [hx, hy, UInt8.xor_assoc, UInt8.xor_comm, xor_left_comm]

theorem multiply_9 (x : UInt8) : multiply x 0x09 = x ^^^ xtime (xtime (xtime x)) := by
  change (1 * x) ^^^ (0 * _) ^^^ (0 * _) ^^^ (1 * _) ^^^ (0 * _) = _
  simp

/-- The four factors differ from one of them by doublings. -/
theorem multiply_sum (p q r s : UInt8) :
    multiply p 0x0e ^^^ multiply q 0x0b ^^^ multiply r 0x0d ^^^ multiply s 0x09 =
      multiply (p ^^^ q ^^^ r ^^^ s) 0x09 ^^^ p ^^^ xtime (p ^^^ q) ^^^
        xtime (xtime (p ^^^ r)) := by
  have e : multiply p 0x0e = xtime p ^^^ xtime (xtime p) ^^^ xtime (xtime (xtime p)) := by
    change (0 * p) ^^^ (1 * _) ^^^ (1 * _) ^^^ (1 * _) ^^^ (0 * _) = _
    simp
  have b : multiply q 0x0b = q ^^^ xtime q ^^^ xtime (xtime (xtime q)) := by
    change (1 * q) ^^^ (1 * _) ^^^ (0 * _) ^^^ (1 * _) ^^^ (0 * _) = _
    simp
  have d : multiply r 0x0d = r ^^^ xtime (xtime r) ^^^ xtime (xtime (xtime r)) := by
    change (1 * r) ^^^ (0 * _) ^^^ (1 * _) ^^^ (1 * _) ^^^ (0 * _) = _
    simp
  simp only [e, b, d, multiply_9, xtime_xor]
  simp only [UInt8.xor_assoc, UInt8.xor_comm, xor_left_comm, xor_cancel]

/-- A byte of a column that is mixed -/
def mixed (a b c d : UInt8) : UInt8 := a ^^^ (xtime (a ^^^ b) ^^^ (a ^^^ b ^^^ c ^^^ d))

theorem unmixed (a b c d : UInt8) :
    multiply (mixed a b c d) 0x0e ^^^ multiply (mixed b c d a) 0x0b ^^^
      multiply (mixed c d a b) 0x0d ^^^ multiply (mixed d a b c) 0x09 = a := by
  have all : mixed a b c d ^^^ mixed b c d a ^^^ mixed c d a b ^^^ mixed d a b c =
      a ^^^ b ^^^ c ^^^ d := by
    simp only [mixed, xtime_xor]
    simp only [UInt8.xor_assoc, UInt8.xor_comm, xor_left_comm, UInt8.xor_self, xor_cancel,
      UInt8.xor_zero]
  have next : mixed a b c d ^^^ mixed b c d a = a ^^^ b ^^^ xtime (a ^^^ c) := by
    simp only [mixed, xtime_xor]
    simp only [UInt8.xor_assoc, UInt8.xor_comm, xor_left_comm, xor_cancel]
  have opposite : mixed a b c d ^^^ mixed c d a b = a ^^^ c ^^^ xtime (a ^^^ b ^^^ c ^^^ d) := by
    simp only [mixed, xtime_xor]
    simp only [UInt8.xor_assoc, UInt8.xor_comm, xor_left_comm, xor_cancel]
  rw [multiply_sum, all, next, opposite, multiply_9]
  simp only [mixed, xtime_xor]
  simp only [UInt8.xor_assoc, UInt8.xor_comm, xor_left_comm, UInt8.xor_self, xor_cancel,
    UInt8.xor_zero]

/-- A sum around a column, from any of its bytes on -/
theorem sum_turn (f : Fin 4 → UInt8) (k : Fin 4) :
    f 0 ^^^ f 1 ^^^ f 2 ^^^ f 3 = f k ^^^ f (k + 1) ^^^ f (k + 2) ^^^ f (k + 3) := by
  have turn (a b c d : UInt8) : a ^^^ b ^^^ c ^^^ d = b ^^^ c ^^^ d ^^^ a := by
    simp only [UInt8.xor_comm, xor_left_comm]
  match k with
  | 0 => rfl
  | 1 => exact turn ..
  | 2 => exact (turn ..).trans (turn ..)
  | 3 => exact (turn (f 3) (f 0) (f 1) (f 2)).symm

theorem invMixColumns_mixColumns (s : State) : invMixColumns (mixColumns s) = s :=
  ext_cell fun i j => by
  have cell (k : Fin 4) : (mixColumns s).cell i k =
      mixed (s.cell i k) (s.cell i (k + 1)) (s.cell i (k + 2)) (s.cell i (k + 3)) := by
    unfold mixColumns mixed
    rw [cell_ofCells, sum_turn (s.cell i) k]
  have turn : ∀ k : Fin 4, k + 1 + 1 = k + 2 ∧ k + 1 + 2 = k + 3 ∧ k + 1 + 3 = k ∧
      k + 2 + 1 = k + 3 ∧ k + 2 + 2 = k ∧ k + 2 + 3 = k + 1 ∧ k + 3 + 1 = k ∧
      k + 3 + 2 = k + 1 ∧ k + 3 + 3 = k + 2 := by decide
  obtain ⟨h1, h2, h3, h4, h5, h6, h7, h8, h9⟩ := turn j
  unfold invMixColumns
  rw [cell_ofCells]
  simp only [cell, h1, h2, h3, h4, h5, h6, h7, h8, h9]
  exact unmixed ..

theorem decryptRound_undoes (round : ℕ) (s : State) :
    decryptRound roundKey round (shiftRows (subBytes (encryptRound roundKey s round))) =
      shiftRows (subBytes s) := by
  unfold decryptRound encryptRound
  rw [invShiftRows_shiftRows, invSubBytes_subBytes, addRoundKey_twice, invMixColumns_mixColumns]

theorem rounds_undone (l : List ℕ) (s : State) :
    l.foldr (decryptRound roundKey) (shiftRows (subBytes (l.foldl (encryptRound roundKey) s))) =
      shiftRows (subBytes s) := by
  induction l generalizing s with
  | nil => rfl
  | cons round l ih => rw [List.foldl_cons, List.foldr_cons, ih, decryptRound_undoes]

theorem decryptBlock_encryptBlock (s : State) :
    decryptBlock roundKey (encryptBlock roundKey s) = s := by
  unfold decryptBlock encryptBlock
  dsimp only
  rw [addRoundKey_twice, rounds_undone, invShiftRows_shiftRows, invSubBytes_subBytes,
    addRoundKey_twice]

/-- There are as many blocks before as after. -/
theorem encryptBlock_decryptBlock (s : State) :
    encryptBlock roundKey (decryptBlock roundKey s) = s := by
  have finite : Finite State := Finite.of_injective (fun (s : State) (k : Fin 16) => s[k].toFin)
    fun s t same => Vector.ext fun k inside => UInt8.toFin_inj.1 (congrFun same ⟨k, inside⟩)
  have inj : Function.Injective (encryptBlock roundKey) :=
    Function.LeftInverse.injective decryptBlock_encryptBlock
  obtain ⟨t, rfl⟩ := Finite.injective_iff_surjective.1 inj s
  rw [decryptBlock_encryptBlock]

theorem xorWithIv_twice (s iv : State) : xorWithIv (xorWithIv s iv) iv = s := by
  refine Vector.ext fun k inside => ?_
  unfold xorWithIv
  rw [Vector.getElem_zipWith, Vector.getElem_zipWith, UInt8.xor_assoc, UInt8.xor_self,
    UInt8.xor_zero]

theorem load_toList (s : State) (rest : List UInt8) : load (s.toList ++ rest) = some s := by
  have front : (s.toList ++ rest).take 16 = s.toList := List.take_left' (by simp)
  unfold load
  rw [dif_pos (by rw [front]; simp)]
  refine congrArg some (Vector.toList_inj.1 ?_)
  simp

theorem load_eq {buf : List UInt8} {s : State} (loaded : load buf = some s) :
    buf = s.toList ++ buf.drop 16 := by
  unfold load at loaded
  split_ifs at loaded with whole
  obtain rfl := Option.some.inj loaded
  simp

/-- What is encrypted is decrypted with the same key from the same initial vector on, and both end
with the same vector. -/
theorem cbcDecrypt_cbcEncrypt (iv : State) (buf : List UInt8) {c : List UInt8} {last : State}
    (encrypted : cbcEncrypt roundKey iv buf = some (c, last)) :
    cbcDecrypt roundKey iv c = some (buf, last) := by
  fun_induction cbcEncrypt roundKey iv buf generalizing c last with
  | case1 iv buf some_ ih =>
    obtain ⟨block, loaded, encrypted⟩ := Option.bind_eq_some_iff.1 encrypted
    obtain ⟨⟨rest, last'⟩, later, shape⟩ := Option.bind_eq_some_iff.1 encrypted
    obtain ⟨rfl, rfl⟩ := Prod.mk.inj (Option.some.inj shape)
    have back := ih _ later
    have behind (c : State) : (c.toList ++ rest).drop 16 = rest := List.drop_left' (by simp)
    have some_' (c : State) : 0 < (c.toList ++ rest).length := by
      rw [List.length_append, Vector.length_toList]
      omega
    rw [cbcDecrypt, dif_pos (some_' _)]
    refine Option.bind_eq_some_iff.2 ⟨_, load_toList _ rest, Option.bind_eq_some_iff.2
      ⟨(buf.drop 16, last'), by rw [behind]; exact back, ?_⟩⟩
    dsimp only
    rw [decryptBlock_encryptBlock, xorWithIv_twice]
    exact congrArg (fun buf => some (buf, last')) (load_eq loaded).symm
  | case2 iv buf none_ =>
    obtain ⟨rfl, rfl⟩ := Prod.mk.inj (Option.some.inj encrypted)
    obtain rfl := List.length_eq_zero_iff.1 (Nat.eq_zero_of_not_pos none_)
    rw [cbcDecrypt, dif_neg (by simp)]

theorem cbcEncrypt_cbcDecrypt (iv : State) (c : List UInt8) {buf : List UInt8} {last : State}
    (decrypted : cbcDecrypt roundKey iv c = some (buf, last)) :
    cbcEncrypt roundKey iv buf = some (c, last) := by
  fun_induction cbcDecrypt roundKey iv c generalizing buf last with
  | case1 iv c some_ ih =>
    obtain ⟨block, loaded, decrypted⟩ := Option.bind_eq_some_iff.1 decrypted
    obtain ⟨⟨rest, last'⟩, later, shape⟩ := Option.bind_eq_some_iff.1 decrypted
    obtain ⟨rfl, rfl⟩ := Prod.mk.inj (Option.some.inj shape)
    have back := ih _ later
    have behind (s : State) : (s.toList ++ rest).drop 16 = rest := List.drop_left' (by simp)
    have some_' (s : State) : 0 < (s.toList ++ rest).length := by
      rw [List.length_append, Vector.length_toList]
      omega
    rw [cbcEncrypt, dif_pos (some_' _)]
    refine Option.bind_eq_some_iff.2 ⟨_, load_toList _ rest, ?_⟩
    dsimp only
    rw [xorWithIv_twice, encryptBlock_decryptBlock, behind, back]
    exact congrArg (fun c => some (c, last')) (load_eq loaded).symm
  | case2 iv c none_ =>
    obtain ⟨rfl, rfl⟩ := Prod.mk.inj (Option.some.inj decrypted)
    obtain rfl := List.length_eq_zero_iff.1 (Nat.eq_zero_of_not_pos none_)
    rw [cbcEncrypt, dif_neg (by simp)]

theorem length_cbcEncrypt (iv : State) (buf : List UInt8) {c : List UInt8} {last : State}
    (encrypted : cbcEncrypt roundKey iv buf = some (c, last)) : c.length = buf.length := by
  fun_induction cbcEncrypt roundKey iv buf generalizing c last with
  | case1 iv buf some_ ih =>
    obtain ⟨block, loaded, encrypted⟩ := Option.bind_eq_some_iff.1 encrypted
    obtain ⟨⟨rest, last'⟩, later, shape⟩ := Option.bind_eq_some_iff.1 encrypted
    obtain ⟨rfl, rfl⟩ := Prod.mk.inj (Option.some.inj shape)
    have length := congrArg List.length (load_eq loaded)
    rw [List.length_append, Vector.length_toList] at length
    rw [List.length_append, Vector.length_toList, ih _ later, ← length]
  | case2 iv buf none_ =>
    obtain ⟨rfl, rfl⟩ := Prod.mk.inj (Option.some.inj encrypted)
    exact (Nat.eq_zero_of_not_pos none_).symm

theorem load_some {buf : List UInt8} (enough : 16 ≤ buf.length) : ∃ s, load buf = some s :=
  ⟨_, dif_pos (by rw [List.length_take]; omega)⟩

/-- Whole blocks are encrypted, to as many bytes. -/
theorem cbcEncrypt_whole (iv : State) (buf : List UInt8) (whole : 16 ∣ buf.length) :
    ∃ c last, cbcEncrypt roundKey iv buf = some (c, last) ∧ c.length = buf.length := by
  have total : ∃ r, cbcEncrypt roundKey iv buf = some r := by
    fun_induction cbcEncrypt roundKey iv buf with
    | case1 iv buf some_ ih =>
      have enough := Nat.le_of_dvd some_ whole
      obtain ⟨block, loaded⟩ := load_some enough
      obtain ⟨r, encrypted⟩ := ih block (by rw [List.length_drop]; omega)
      exact ⟨_, Option.bind_eq_some_iff.2 ⟨block, loaded, Option.bind_eq_some_iff.2
        ⟨r, encrypted, rfl⟩⟩⟩
    | case2 iv buf none_ => exact ⟨_, rfl⟩
  obtain ⟨⟨c, last⟩, encrypted⟩ := total
  exact ⟨c, last, encrypted, length_cbcEncrypt iv buf encrypted⟩

/-- Nothing but whole blocks is encrypted. -/
theorem whole_of_cbcEncrypt (iv : State) (buf : List UInt8) {c : List UInt8} {last : State}
    (encrypted : cbcEncrypt roundKey iv buf = some (c, last)) : 16 ∣ buf.length := by
  fun_induction cbcEncrypt roundKey iv buf generalizing c last with
  | case1 iv buf some_ ih =>
    obtain ⟨block, loaded, encrypted⟩ := Option.bind_eq_some_iff.1 encrypted
    obtain ⟨⟨rest, last'⟩, later, -⟩ := Option.bind_eq_some_iff.1 encrypted
    rw [load_eq loaded, List.length_append, Vector.length_toList]
    exact Nat.dvd_add (dvd_refl 16) (ih _ later)
  | case2 iv buf none_ => exact ⟨0, Nat.eq_zero_of_not_pos none_⟩

/-- With any round keys and any initial vector the messages of whole blocks are encrypted one to
one, and decryption is the inverse, which ends with the same vector. -/
theorem cbc_inverse (roundKey : List UInt8) (iv : State) :
    (∀ buf, (∃ c last, cbcEncrypt roundKey iv buf = some (c, last) ∧ c.length = buf.length) ↔
      16 ∣ buf.length) ∧
    ∀ buf c last, cbcEncrypt roundKey iv buf = some (c, last) ↔
      cbcDecrypt roundKey iv c = some (buf, last) := by
  refine ⟨fun buf => ⟨?_, cbcEncrypt_whole iv buf⟩, fun buf c last =>
    ⟨cbcDecrypt_cbcEncrypt iv buf, cbcEncrypt_cbcDecrypt iv c⟩⟩
  rintro ⟨c, last, encrypted, -⟩
  exact whole_of_cbcEncrypt iv buf encrypted

end Inverse

end Epilog.Common.Aes256
