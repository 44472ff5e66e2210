/- Module: Epilog/Common/Sha2
   source: src/src/common/sha256.hpp, src/src/common/sha256.cpp, src/src/common/sha512.hpp,
     src/src/common/sha512.cpp
   digest: SHA-256 and SHA-512 over a message in pieces. -/

import Epilog.Global.MetaValidation
import Epilog.Lib.BlockStream

set_option autoImplicit false

namespace Epilog.Common.Sha2

instance neZero_128 : NeZero 128 := ⟨by decide⟩

open Epilog.Lib.BlockStream
open Epilog.Global.MetaCodec (beBytes beNat length_beBytes)
open Epilog.Global.MetaValidation (beBytes_add beBytes_congr)

section Rounds

/-- The working variables `a` to `h`, and the words of the state -/
structure Words (W : Type) where
  a : W
  b : W
  c : W
  d : W
  e : W
  f : W
  g : W
  h : W
  deriving DecidableEq, Repr

variable {W : Type} [Add W] [OfNat W 0]

namespace Words

/-- `s_[0] += a` and so on -/
def add (s v : Words W) : Words W :=
  ⟨s.a + v.a, s.b + v.b, s.c + v.c, s.d + v.d, s.e + v.e, s.f + v.f, s.g + v.g, s.h + v.h⟩

def toList (s : Words W) : List W := [s.a, s.b, s.c, s.d, s.e, s.f, s.g, s.h]

end Words

/-- The rounds of `block`: each takes a word of the sixteen, which is replaced first from the second
sixteen rounds on. -/
def rounds (round : Words W → W → W → Words W) (next : W → W → W → W → W) :
    ℕ → List W → Words W → List W → Words W × List W
  | _, [], v, w => (v, w)
  | i, k :: ks, v, w =>
    let W_ (j : ℕ) : W := w.getD (j % 16) 0
    let wi := if i < 16 then W_ i else next (W_ i) (W_ (i + 14)) (W_ (i + 9)) (W_ (i + 1))
    rounds round next (i + 1) ks (round v k wi) (w.set (i % 16) wi)

end Rounds

namespace Sha256

def Ch (x y z : UInt32) : UInt32 := z ^^^ (x &&& (y ^^^ z))

def Maj (x y z : UInt32) : UInt32 := (x &&& y) ||| (z &&& (x ||| y))

def Sigma0 (x : UInt32) : UInt32 :=
  (x >>> 2 ||| x <<< 30) ^^^ (x >>> 13 ||| x <<< 19) ^^^ (x >>> 22 ||| x <<< 10)

def Sigma1 (x : UInt32) : UInt32 :=
  (x >>> 6 ||| x <<< 26) ^^^ (x >>> 11 ||| x <<< 21) ^^^ (x >>> 25 ||| x <<< 7)

def sigma0 (x : UInt32) : UInt32 := (x >>> 7 ||| x <<< 25) ^^^ (x >>> 18 ||| x <<< 14) ^^^ (x >>> 3)

def sigma1 (x : UInt32) : UInt32 :=
  (x >>> 17 ||| x <<< 15) ^^^ (x >>> 19 ||| x <<< 13) ^^^ (x >>> 10)

/-- `Round`, with the variables in the order that the next one takes them in -/
def Round (v : Words UInt32) (k w : UInt32) : Words UInt32 :=
  let t1 := v.h + Sigma1 v.e + Ch v.e v.f v.g + k + w
  let t2 := Sigma0 v.a + Maj v.a v.b v.c
  ⟨t1 + t2, v.a, v.b, v.c, v.d + t1, v.e, v.f, v.g⟩

/-- The constants of the rounds of `block` -/
def K : List UInt32 :=
  [0x428a2f98, 0x71374491, 0xb5c0fbcf, 0xe9b5dba5, 0x3956c25b, 0x59f111f1, 0x923f82a4, 0xab1c5ed5,
    0xd807aa98, 0x12835b01, 0x243185be, 0x550c7dc3, 0x72be5d74, 0x80deb1fe, 0x9bdc06a7, 0xc19bf174,
    0xe49b69c1, 0xefbe4786, 0x0fc19dc6, 0x240ca1cc, 0x2de92c6f, 0x4a7484aa, 0x5cb0a9dc, 0x76f988da,
    0x983e5152, 0xa831c66d, 0xb00327c8, 0xbf597fc7, 0xc6e00bf3, 0xd5a79147, 0x06ca6351, 0x14292967,
    0x27b70a85, 0x2e1b2138, 0x4d2c6dfc, 0x53380d13, 0x650a7354, 0x766a0abb, 0x81c2c92e, 0x92722c85,
    0xa2bfe8a1, 0xa81a664b, 0xc24b8b70, 0xc76c51a3, 0xd192e819, 0xd6990624, 0xf40e3585, 0x106aa070,
    0x19a4c116, 0x1e376c08, 0x2748774c, 0x34b0bcb5, 0x391c0cb3, 0x4ed8aa4a, 0x5b9cca4f, 0x682e6ff3,
    0x748f82ee, 0x78a5636f, 0x84c87814, 0x8cc70208, 0x90befffa, 0xa4506ceb, 0xbef9a3f7, 0xc67178f2]

@[irreducible] def block (s : Words UInt32) (buffer : List UInt8) : Words UInt32 :=
  let words := (blocks 4 buffer).map fun bytes => UInt32.ofNat (beNat bytes)
  s.add (rounds Round (fun w w14 w9 w1 => w + (sigma1 w14 + w9 + sigma0 w1)) 0 K s words).1

/-- The state that `init` sets -/
def start : Words UInt32 :=
  ⟨0x6a09e667, 0xbb67ae85, 0x3c6ef372, 0xa54ff53a, 0x510e527f, 0x9b05688c, 0x1f83d9ab, 0x5be0cd19⟩

/-- `sha256` -/
structure State where
  s : Words UInt32
  buffer : Vector UInt8 64
  totalSize : UInt32

/-- The buffer stays as it is. -/
def init (st : State) : State := { st with s := start, totalSize := 0 }

/-- The loop of `update`, and the copy behind it -/
def updateLoop (s : Words UInt32) (buffer : Vector UInt8 64) (n : Fin 64) (data : List UInt8) :
    Words UInt32 × Vector UInt8 64 :=
  if 64 - n.val ≤ data.length then
    let buffer := place buffer n (data.take (64 - n))
    updateLoop (block s buffer.toList) buffer 0 (data.drop (64 - n))
  else (s, place buffer n data)
termination_by data.length
decreasing_by
  rw [List.length_drop]
  omega

def update (st : State) (data : List UInt8) : State :=
  let (s, buffer) := updateLoop st.s st.buffer (Fin.ofNat 64 st.totalSize.toNat) data
  ⟨s, buffer, st.totalSize + UInt32.ofNat data.length⟩

def PADDING : List UInt8 := 0x80 :: List.replicate 63 0

def finalize (st : State) : List UInt8 :=
  let tot := st.totalSize
  let st := update st (PADDING.take (padSize 64 56 (tot.toNat % 64)))
  let buffer := place st.buffer 56 (beBytes 4 (tot >>> 29).toNat ++ beBytes 4 (tot <<< 3).toNat)
  (block st.s buffer.toList).toList.flatMap fun w => beBytes 4 w.toNat

end Sha256

namespace Sha512

def ROR64 (a n : UInt64) : UInt64 := a >>> n ||| a <<< (64 - n)

def CH (x y z : UInt64) : UInt64 := (x &&& y) ||| (~~~x &&& z)

def MAJ (x y z : UInt64) : UInt64 := (x &&& y) ||| (x &&& z) ||| (y &&& z)

def SIGMA1 (x : UInt64) : UInt64 := ROR64 x 28 ^^^ ROR64 x 34 ^^^ ROR64 x 39

def SIGMA2 (x : UInt64) : UInt64 := ROR64 x 14 ^^^ ROR64 x 18 ^^^ ROR64 x 41

def SIGMA3 (x : UInt64) : UInt64 := ROR64 x 1 ^^^ ROR64 x 8 ^^^ x >>> 7

def SIGMA4 (x : UInt64) : UInt64 := ROR64 x 19 ^^^ ROR64 x 61 ^^^ x >>> 6

def K : List UInt64 :=
  [0x428A2F98D728AE22, 0x7137449123EF65CD, 0xB5C0FBCFEC4D3B2F, 0xE9B5DBA58189DBBC,
    0x3956C25BF348B538, 0x59F111F1B605D019, 0x923F82A4AF194F9B, 0xAB1C5ED5DA6D8118,
    0xD807AA98A3030242, 0x12835B0145706FBE, 0x243185BE4EE4B28C, 0x550C7DC3D5FFB4E2,
    0x72BE5D74F27B896F, 0x80DEB1FE3B1696B1, 0x9BDC06A725C71235, 0xC19BF174CF692694,
    0xE49B69C19EF14AD2, 0xEFBE4786384F25E3, 0x0FC19DC68B8CD5B5, 0x240CA1CC77AC9C65,
    0x2DE92C6F592B0275, 0x4A7484AA6EA6E483, 0x5CB0A9DCBD41FBD4, 0x76F988DA831153B5,
    0x983E5152EE66DFAB, 0xA831C66D2DB43210, 0xB00327C898FB213F, 0xBF597FC7BEEF0EE4,
    0xC6E00BF33DA88FC2, 0xD5A79147930AA725, 0x06CA6351E003826F, 0x142929670A0E6E70,
    0x27B70A8546D22FFC, 0x2E1B21385C26C926, 0x4D2C6DFC5AC42AED, 0x53380D139D95B3DF,
    0x650A73548BAF63DE, 0x766A0ABB3C77B2A8, 0x81C2C92E47EDAEE6, 0x92722C851482353B,
    0xA2BFE8A14CF10364, 0xA81A664BBC423001, 0xC24B8B70D0F89791, 0xC76C51A30654BE30,
    0xD192E819D6EF5218, 0xD69906245565A910, 0xF40E35855771202A, 0x106AA07032BBD1B8,
    0x19A4C116B8D2D0C8, 0x1E376C085141AB53, 0x2748774CDF8EEB99, 0x34B0BCB5E19B48A8,
    0x391C0CB3C5C95A63, 0x4ED8AA4AE3418ACB, 0x5B9CCA4F7763E373, 0x682E6FF3D6B2B8A3,
    0x748F82EE5DEFB2FC, 0x78A5636F43172F60, 0x84C87814A1F0AB72, 0x8CC702081A6439EC,
    0x90BEFFFA23631E28, 0xA4506CEBDE82BDE9, 0xBEF9A3F7B2C67915, 0xC67178F2E372532B,
    0xCA273ECEEA26619C, 0xD186B8C721C0C207, 0xEADA7DD6CDE0EB1E, 0xF57D4F7FEE6ED178,
    0x06F067AA72176FBA, 0x0A637DC5A2C898A6, 0x113F9804BEF90DAE, 0x1B710B35131C471B,
    0x28DB77F523047D84, 0x32CAAB7B40C72493, 0x3C9EBE0A15C9BEBC, 0x431D67C49C100D4C,
    0x4CC5D4BECB3E42B6, 0x597F299CFC657E2A, 0x5FCB6FAB3AD6FAEC, 0x6C44198C4A475817]

/-- The body of the loop of `block` -/
def round (v : Words UInt64) (k w : UInt64) : Words UInt64 :=
  let t1 := v.h + SIGMA2 v.e + CH v.e v.f v.g + k + w
  let t2 := SIGMA1 v.a + MAJ v.a v.b v.c
  ⟨t1 + t2, v.a, v.b, v.c, v.d + t1, v.e, v.f, v.g⟩

/-- The new state, and what is left in the buffer -/
@[irreducible] def block (s : Words UInt64) (buffer : List UInt8) : Words UInt64 × List UInt64 :=
  let words := (blocks 8 buffer).map fun bytes => UInt64.ofNat (beNat bytes)
  let (v, w) := rounds round (fun w w14 w9 w1 => w + (SIGMA4 w14 + w9 + SIGMA3 w1)) 0 K s words
  (s.add v, w)

/-- The state that `init` sets -/
def start : Words UInt64 :=
  ⟨0x6A09E667F3BCC908, 0xBB67AE8584CAA73B, 0x3C6EF372FE94F82B, 0xA54FF53A5F1D36F1,
    0x510E527FADE682D1, 0x9B05688C2B3E6C1F, 0x1F83D9ABFB41BD6B, 0x5BE0CD19137E2179⟩

/-- `sha512`: `size_` is less than a block whenever it is looked at. -/
structure State where
  h : Words UInt64
  buffer : Vector UInt8 128
  size : Fin 128
  totalSize : UInt64

def init (st : State) : State := { st with h := start, size := 0, totalSize := 0 }

/-- The words lie in the buffer with the lowest byte first. -/
def leftIn (buffer : Vector UInt8 128) (w : List UInt64) : Vector UInt8 128 :=
  place buffer 0 (w.flatMap fun w => (beBytes 8 w.toNat).reverse)

def update (st : State) (data : List UInt8) : State :=
  if _ : 0 < data.length then
    let n := min data.length (128 - st.size)
    let buffer := place st.buffer st.size (data.take n)
    let total := st.totalSize + UInt64.ofNat n
    if room : st.size.val + n < 128 then
      update ⟨st.h, buffer, ⟨st.size + n, room⟩, total⟩ (data.drop n)
    else
      let (h, w) := block st.h buffer.toList
      update ⟨h, leftIn buffer w, 0, total⟩ (data.drop n)
  else st
termination_by data.length
decreasing_by
  all_goals
    rw [List.length_drop]
    omega

def PADDING : List UInt8 := 0x80 :: List.replicate 127 0

def finalize (st : State) : List UInt8 :=
  let bits := st.totalSize * 8
  let st := update st (PADDING.take (padSize 128 112 st.size))
  let buffer := place st.buffer 112 (beBytes 8 0 ++ beBytes 8 bits.toNat)
  (block st.h buffer.toList).1.toList.flatMap fun w => beBytes 8 w.toNat

end Sha512

namespace Sha256

def chaining : Chaining (Words UInt32) UInt8 := ⟨start, block⟩

/-- The digest of a message as the standard has it: a one bit, zeros, and the number of bits in
eight bytes -/
def standard (m : List UInt8) : List UInt8 :=
  (chaining.chain 64 (pad 64 0x80 0 (beBytes 8 (8 * m.length)) m)).toList.flatMap
    fun w => beBytes 4 w.toNat

/-- What the state has to do with the message so far -/
structure Reads (st : State) (m : List UInt8) : Prop where
  buffers : Buffers chaining m st.s st.buffer (m.length % 64)
  total : st.totalSize.toNat = m.length % 2 ^ 32

variable {st : State} {m : List UInt8}

theorem init_reads (st : State) : Reads (init st) [] :=
  ⟨buffers_nil (by norm_num) st.buffer, rfl⟩

theorem updateLoop_buffers {s : Words UInt32} {buffer : Vector UInt8 64} {n : Fin 64}
    (data : List UInt8) (buffers : Buffers chaining m s buffer n) :
    Buffers chaining (m ++ data) (updateLoop s buffer n data).1 (updateLoop s buffer n data).2
      ((m ++ data).length % 64) := by
  fun_induction updateLoop s buffer n data generalizing m with
  | case1 s buffer n data enough filled =>
    rename_i ih
    have full : n + (data.take (64 - n)).length = 64 := by
      rw [List.length_take]
      omega
    have rest := ih (buffers.fill full filled)
    rwa [List.append_assoc, List.take_append_drop] at rest
  | case2 s buffer n data short =>
    have held := buffers.hold (show n + data.length < 64 by omega)
    rwa [held.count]

theorem update_reads (st : State) (m data : List UInt8) (reads : Reads st m) :
    Reads (update st data) (m ++ data) := by
  have start : Fin.ofNat 64 st.totalSize.toNat = ⟨m.length % 64, Nat.mod_lt _ (by norm_num)⟩ := by
    refine Fin.ext ?_
    rw [Fin.val_ofNat, reads.total]
    change _ = m.length % 64
    omega
  refine ⟨?_, ?_⟩
  · unfold update
    rw [start]
    exact updateLoop_buffers data reads.buffers
  · change (st.totalSize + UInt32.ofNat data.length).toNat = _
    rw [UInt32.toNat_add, reads.total, UInt32.toNat_ofNat', List.length_append]
    omega

/-- The number of bits is put together from the number of bytes. -/
theorem length_bytes (tot : UInt32) :
    beBytes 4 (tot >>> 29).toNat ++ beBytes 4 (tot <<< 3).toNat = beBytes 8 (8 * tot.toNat) := by
  have high : (tot >>> 29).toNat = 8 * tot.toNat / 256 ^ 4 := by
    rw [UInt32.toNat_shiftRight, Nat.shiftRight_eq_div_pow]
    change tot.toNat / 2 ^ 29 = _
    omega
  have low : (tot <<< 3).toNat % 256 ^ 4 = 8 * tot.toNat % 256 ^ 4 := by
    rw [UInt32.toNat_shiftLeft, Nat.shiftLeft_eq]
    change tot.toNat * 2 ^ 3 % 2 ^ 32 % _ = _
    omega
  rw [beBytes_add 4 4, high, beBytes_congr low]

theorem finalize_reads (reads : Reads st m) (short : m.length < 2 ^ 32) :
    finalize st = standard m := by
  have total : st.totalSize.toNat = m.length := by rw [reads.total, Nat.mod_eq_of_lt short]
  have ready := (update_reads st m (PADDING.take (padSize 64 56 (m.length % 64))) reads).buffers
  have behind : (m ++ PADDING.take (padSize 64 56 (m.length % 64))).length % 64 = 56 :=
    place_reached (by omega) (by omega)
  rw [behind] at ready
  have tail : 56 + (beBytes 8 (8 * m.length)).length = 64 := by rw [length_beBytes]
  have whole := (ready.fill tail st.buffer).chain
  have spec : pad 64 0x80 0 (beBytes 8 (8 * m.length)) m = m ++
      PADDING.take (padSize 64 56 (m.length % 64)) ++ beBytes 8 (8 * m.length) :=
    pad_taken _ _ m (by omega) tail
  unfold finalize standard
  dsimp only
  rw [total, length_bytes, total, spec, ← whole]
  rfl

/-- A message of less than 2 ^ 32 bytes has the standard's digest, however it is cut into pieces and
whatever was in the object before. -/
theorem sha256_digest (st : State) (pieces : List (List UInt8))
    (short : pieces.flatten.length < 2 ^ 32) :
    finalize (pieces.foldl update (init st)) = standard pieces.flatten :=
  finalize_reads (foldl_pieces (fun piece _ s m => update_reads s m piece) (init_reads st)) short

theorem sha256_digest_two : finalize ([[97], [98, 99]].foldl update
    (init ⟨start, Vector.replicate 64 0, 0⟩)) = standard [97, 98, 99] :=
  sha256_digest ⟨start, Vector.replicate 64 0, 0⟩ [[97], [98, 99]] (by decide)

end Sha256

namespace Sha512

def chaining : Chaining (Words UInt64) UInt8 := ⟨start, fun h buffer => (block h buffer).1⟩

/-- The digest of a message as the standard has it, with the number of bits in sixteen bytes -/
def standard (m : List UInt8) : List UInt8 :=
  (chaining.chain 128 (pad 128 0x80 0 (beBytes 16 (8 * m.length)) m)).toList.flatMap
    fun w => beBytes 8 w.toNat

/-- What the state has to do with the message so far -/
structure Reads (st : State) (m : List UInt8) : Prop where
  buffers : Buffers chaining m st.h st.buffer st.size
  total : st.totalSize.toNat = m.length % 2 ^ 64

variable {st : State} {m : List UInt8}

theorem init_reads (st : State) : Reads (init st) [] :=
  ⟨buffers_nil (by norm_num) st.buffer, rfl⟩

theorem total_add {total : UInt64} (counted : total.toNat = m.length % 2 ^ 64)
    (piece : List UInt8) :
    (total + UInt64.ofNat piece.length).toNat = (m ++ piece).length % 2 ^ 64 := by
  rw [UInt64.toNat_add, counted, UInt64.toNat_ofNat', List.length_append]
  omega

theorem update_reads (st : State) (m data : List UInt8) (reads : Reads st m) :
    Reads (update st data) (m ++ data) := by
  fun_induction update st data generalizing m with
  | case1 st data some_ n buffer total room =>
    rename_i ih
    have taken : (data.take n).length = n := by
      rw [List.length_take]
      omega
    have held := reads.buffers.hold (show st.size + (data.take n).length < 128 by omega)
    have rest := ih (m ++ data.take n) ⟨by rwa [taken] at held, by
      have added := total_add reads.total (data.take n)
      rwa [taken] at added⟩
    rwa [List.append_assoc, List.take_append_drop] at rest
  | case2 st data some_ n buffer total full h w compressed =>
    rename_i ih
    have taken : (data.take n).length = n := by
      rw [List.length_take]
      omega
    have filled := reads.buffers.fill (show st.size + (data.take n).length = 128 by omega)
      (leftIn buffer w)
    have rest := ih (m ++ data.take n) ⟨by
      change Buffers chaining _ (block st.h buffer.toList).1 _ 0 at filled
      rwa [compressed] at filled, by
      have added := total_add reads.total (data.take n)
      rwa [taken] at added⟩
    rwa [List.append_assoc, List.take_append_drop] at rest
  | case3 st data none_ =>
    obtain rfl := List.length_eq_zero_iff.1 (Nat.eq_zero_of_not_pos none_)
    rwa [List.append_nil]

theorem finalize_reads (reads : Reads st m) (short : m.length < 2 ^ 61) :
    finalize st = standard m := by
  have ready := (update_reads st m (PADDING.take (padSize 128 112 st.size)) reads).buffers
  have behind := ready.count
  rw [← reads.buffers.count] at ready behind
  rw [show (m ++ PADDING.take (padSize 128 112 (m.length % 128))).length % 128 = 112 from
    place_reached (by omega) (by omega)] at behind
  rw [← behind] at ready
  have bits : beBytes 8 0 ++ beBytes 8 (st.totalSize * 8).toNat = beBytes 16 (8 * m.length) := by
    have count : (st.totalSize * 8).toNat = 8 * m.length := by
      rw [UInt64.toNat_mul, reads.total]
      change m.length % 2 ^ 64 * 8 % 2 ^ 64 = _
      omega
    rw [beBytes_add 8 8, count, Nat.div_eq_of_lt (by omega)]
  have tail : 112 + (beBytes 16 (8 * m.length)).length = 128 := by rw [length_beBytes]
  have whole := (ready.fill tail st.buffer).chain
  have spec : pad 128 0x80 0 (beBytes 16 (8 * m.length)) m = m ++
      PADDING.take (padSize 128 112 (m.length % 128)) ++ beBytes 16 (8 * m.length) :=
    pad_taken _ _ m (by omega) tail
  unfold finalize standard
  dsimp only
  rw [bits, spec, ← whole, ← reads.buffers.count]
  rfl

/-- A message of less than 2 ^ 61 bytes has the standard's digest, however it is cut into pieces and
whatever was in the object before. -/
theorem sha512_digest (st : State) (pieces : List (List UInt8))
    (short : pieces.flatten.length < 2 ^ 61) :
    finalize (pieces.foldl update (init st)) = standard pieces.flatten :=
  finalize_reads (foldl_pieces (fun piece _ s m => update_reads s m piece) (init_reads st)) short

theorem sha512_digest_two : finalize ([[97], [98, 99]].foldl update
    (init ⟨start, Vector.replicate 128 0, 0, 0⟩)) = standard [97, 98, 99] :=
  sha512_digest ⟨start, Vector.replicate 128 0, 0, 0⟩ [[97], [98, 99]] (by decide)

end Sha512

end Epilog.Common.Sha2
