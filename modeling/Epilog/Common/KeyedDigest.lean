/- Module: Epilog/Common/KeyedDigest
   source: src/src/common/hmac.hpp, src/src/common/pbkdf2.hpp
   digest: Keyed digests over any of the hashes, and keys derived from passwords with them. -/

import Epilog.Common.Sha2

set_option autoImplicit false

namespace Epilog.Common.KeyedDigest

open Epilog.Lib.BlockStream
open Epilog.Global.MetaCodec (beBytes length_beBytes)

section Source

/-- A class that the templates take, with the digest that it gives for messages up to a length -/
structure Hash where
  State : Type
  init : State → State
  update : State → List UInt8 → State
  finalize : State → List UInt8
  HASH_SIZE : ℕ
  BLOCK_SIZE : ℕ
  digest : List UInt8 → List UInt8
  limit : ℕ
  digests : ∀ (st : State) (pieces : List (List UInt8)), pieces.flatten.length < limit →
    finalize (pieces.foldl update (init st)) = digest pieces.flatten
  length_digest : ∀ m, (digest m).length = HASH_SIZE
  hash_pos : 0 < HASH_SIZE
  hash_le_block : HASH_SIZE ≤ BLOCK_SIZE
  block_lt : BLOCK_SIZE + HASH_SIZE < limit

def sha512 : Hash where
  State := Sha2.Sha512.State
  init := Sha2.Sha512.init
  update := Sha2.Sha512.update
  finalize := Sha2.Sha512.finalize
  HASH_SIZE := 64
  BLOCK_SIZE := 128
  digest := Sha2.Sha512.standard
  limit := 2 ^ 61
  digests st pieces short := Sha2.Sha512.finalize_reads (foldl_pieces
    (fun piece _ s m => Sha2.Sha512.update_reads s m piece) (Sha2.Sha512.init_reads st)) short
  length_digest m := by simp [Sha2.Sha512.standard, Sha2.Words.toList]
  hash_pos := by decide
  hash_le_block := by decide
  block_lt := by decide

variable (H : Hash)

structure Hmac where
  inner_hash : H.State
  key_block : List UInt8

variable {H}

/-- `key_block[i] ^ pad` for each byte -/
def masked (key_block : List UInt8) (mask : UInt8) : List UInt8 := key_block.map (· ^^^ mask)

/-- `key_block_` in `init`; a hash on the stack is made in whatever was in memory. -/
def keyBlockIn (memory : H.State) (key : List UInt8) : List UInt8 :=
  if H.BLOCK_SIZE < key.length then
    H.finalize (H.update (H.init memory) key) ++ List.replicate (H.BLOCK_SIZE - H.HASH_SIZE) 0
  else key ++ List.replicate (H.BLOCK_SIZE - key.length) 0

def Hmac.init (memory : H.State) (self : Hmac H) (key : List UInt8) : Hmac H :=
  let block := keyBlockIn memory key
  ⟨H.update (H.init self.inner_hash) (masked block 0x36), block⟩

def Hmac.update (self : Hmac H) (data : List UInt8) : Hmac H :=
  { self with inner_hash := H.update self.inner_hash data }

def Hmac.finalize (memory : H.State) (self : Hmac H) : List UInt8 :=
  let outer := H.update (H.init memory) (masked self.key_block 0x5c)
  H.finalize (H.update outer (H.finalize self.inner_hash))

def xorstr (a b : List UInt8) : List UInt8 := List.zipWith (· ^^^ ·) a b

/-- The loop of `pbkdf2_F` -/
def rounds (memory : H.State) (hash0 : Hmac H) : ℕ → List UInt8 → List UInt8 → List UInt8
  | 0, _, T => T
  | r + 1, U, T =>
    let U := (hash0.update U).finalize memory
    rounds memory hash0 r U (xorstr T U)

/-- `pbkdf2_F`: the copy into `key_` must not go past its 64 bytes. -/
def pbkdf2_F (memory : H.State) (hash0 : Hmac H) (salt : List UInt8) (iter : UInt64)
    (key : Vector UInt8 64) (i : ℕ) : Option (Vector UInt8 64) :=
  let hash1 := (hash0.update salt).update [0, 0, 0, UInt8.ofNat (i + 1)]
  let U := hash1.finalize memory
  let T := rounds memory hash0 (iter - 1).toNat U U
  if i * H.HASH_SIZE + T.length ≤ 64 then some (place key (i * H.HASH_SIZE) T) else none

def numBlocks (H : Hash) (key_len : ℕ) : ℕ := (key_len + H.HASH_SIZE - 1) / H.HASH_SIZE

/-- `set_password`: the bytes of `key_` -/
def set_password (memory : H.State) (hash : Hmac H) (salt : List UInt8) (iter : UInt64)
    (key_len : ℕ) (key : Vector UInt8 64) (password : List UInt8) : Option (Vector UInt8 64) :=
  let hash := hash.init memory password
  (List.range (numBlocks H key_len)).foldlM (pbkdf2_F memory hash salt iter) key

end Source

section Keyed

variable (H : Hash)

/-- The key as it is combined with the masks -/
def keyBlock (key : List UInt8) : List UInt8 :=
  let short := if H.BLOCK_SIZE < key.length then H.digest key else key
  short ++ List.replicate (H.BLOCK_SIZE - short.length) 0

/-- The keyed digest as its standard has it -/
def hmacOf (key m : List UInt8) : List UInt8 :=
  H.digest (masked (keyBlock H key) 0x5c ++ H.digest (masked (keyBlock H key) 0x36 ++ m))

variable {H} {key m : List UInt8} {memory : H.State} {self : Hmac H}

theorem length_keyBlock (key : List UInt8) : (keyBlock H key).length = H.BLOCK_SIZE := by
  have digest := H.length_digest key
  have less := H.hash_le_block
  unfold keyBlock
  dsimp only
  rw [List.length_append, List.length_replicate]
  split_ifs <;> omega

/-- The inner hash has taken up the masked key and the message so far. -/
def Keyed (key : List UInt8) (self : Hmac H) (m : List UInt8) : Prop :=
  self.key_block = keyBlock H key ∧ ∃ st, ∃ pieces : List (List UInt8),
    self.inner_hash = pieces.foldl H.update (H.init st) ∧
      pieces.flatten = masked (keyBlock H key) 0x36 ++ m

theorem init_keyed (memory : H.State) (self : Hmac H) (short : key.length < H.limit) :
    Keyed key (self.init memory key) [] := by
  have block : keyBlockIn memory key = keyBlock H key := by
    unfold keyBlockIn keyBlock
    dsimp only
    split_ifs with long
    · have digest := H.digests memory [key] (by simpa using short)
      rw [List.foldl_cons, List.foldl_nil, List.flatten_singleton] at digest
      rw [digest, H.length_digest]
    · rfl
  refine ⟨block, self.inner_hash, [masked (keyBlock H key) 0x36], ?_, ?_⟩
  · rw [← block]
    rfl
  · rw [List.flatten_singleton, List.append_nil]

theorem Keyed.update (keyed : Keyed key self m) (data : List UInt8) :
    Keyed key (self.update data) (m ++ data) := by
  obtain ⟨block, st, pieces, inner, flat⟩ := keyed
  refine ⟨block, st, pieces ++ [data], ?_, ?_⟩
  · rw [List.foldl_append, ← inner]
    rfl
  · rw [List.flatten_append, flat, List.flatten_singleton, List.append_assoc]

theorem Keyed.finalize (keyed : Keyed key self m) (memory : H.State)
    (short : H.BLOCK_SIZE + m.length < H.limit) : self.finalize memory = hmacOf H key m := by
  obtain ⟨block, st, pieces, inner, flat⟩ := keyed
  have length (mask : UInt8) : (masked (keyBlock H key) mask).length = H.BLOCK_SIZE := by
    rw [masked, List.length_map, length_keyBlock]
  have first := H.digests st pieces (by rwa [flat, List.length_append, length])
  have second := H.digests memory [masked (keyBlock H key) 0x5c,
    H.digest (masked (keyBlock H key) 0x36 ++ m)]
    (by simpa [length, H.length_digest] using H.block_lt)
  rw [flat, ← inner] at first
  unfold Hmac.finalize
  rw [first, block]
  simpa [hmacOf] using second

theorem length_hmacOf (key m : List UInt8) : (hmacOf H key m).length = H.HASH_SIZE :=
  H.length_digest _

/-- The keyed digest of a message is the standard's, however the message is cut into pieces and
whatever was in the objects before. -/
theorem hmac_digest (memory memory' : H.State) (self : Hmac H) (key : List UInt8)
    (pieces : List (List UInt8)) (shortKey : key.length < H.limit)
    (short : H.BLOCK_SIZE + pieces.flatten.length < H.limit) :
    (pieces.foldl Hmac.update (self.init memory key)).finalize memory' =
      hmacOf H key pieces.flatten :=
  Keyed.finalize (@foldl_pieces _ _ Hmac.update (Keyed key) pieces
    (fun piece _ _ _ keyed => keyed.update piece) _ [] (init_keyed memory self shortKey)) memory'
      short

/-- What is in memory before a hash is made -/
def blank : Sha2.Sha512.State := ⟨Sha2.Sha512.start, Vector.replicate 128 0, 0, 0⟩

theorem hmac_digest_two : ([[97], [98, 99]].foldl Hmac.update
    ((⟨blank, []⟩ : Hmac sha512).init blank [107])).finalize blank =
      hmacOf sha512 [107] [97, 98, 99] :=
  hmac_digest (H := sha512) blank blank ⟨blank, []⟩ [107] [[97], [98, 99]] (by decide) (by decide)

end Keyed

section Derived

variable (H : Hash) (password salt : List UInt8)

/-- What is combined in block `i`, as the standard has it -/
def iterated (i : ℕ) : ℕ → List UInt8
  | 0 => hmacOf H password (salt ++ beBytes 4 i)
  | r + 1 => hmacOf H password (iterated i r)

def derivedBlock (iter i : ℕ) : List UInt8 :=
  (List.range (iter - 1)).foldl (fun T r => xorstr T (iterated H password salt i (r + 1)))
    (iterated H password salt i 0)

/-- The key that the standard derives from a password -/
def derived (iter key_len : ℕ) : List UInt8 :=
  ((List.range (numBlocks H key_len)).flatMap fun i =>
    derivedBlock H password salt iter (i + 1)).take key_len

variable {H} {password salt} {memory : H.State} {hash0 : Hmac H} {iter : UInt64}
  {key : Vector UInt8 64}

theorem length_iterated (i r : ℕ) : (iterated H password salt i r).length = H.HASH_SIZE := by
  cases r <;> exact length_hmacOf _ _

theorem length_derivedBlock (iter i : ℕ) :
    (derivedBlock H password salt iter i).length = H.HASH_SIZE := by
  unfold derivedBlock
  induction iter - 1 with
  | zero => exact length_iterated i 0
  | succ n ih =>
    rw [List.range_succ, List.foldl_append, List.foldl_cons, List.foldl_nil, xorstr,
      List.length_zipWith, ih, length_iterated, Nat.min_self]

theorem rounds_eq (keyed : Keyed password hash0 []) (n i j : ℕ) (T : List UInt8) :
    rounds memory hash0 n (iterated H password salt i j) T =
      (List.range n).foldl (fun T r => xorstr T (iterated H password salt i (j + r + 1))) T := by
  induction n generalizing j T with
  | zero => rfl
  | succ n ih =>
    have next : (hash0.update (iterated H password salt i j)).finalize memory =
        iterated H password salt i (j + 1) := by
      refine (keyed.update _).finalize memory ?_
      rw [List.nil_append, length_iterated]
      exact H.block_lt
    unfold rounds
    dsimp only
    rw [next, ih, List.range_succ_eq_map, List.foldl_cons, List.foldl_map]
    refine congrArg (fun f => List.foldl f _ _) (funext fun T => funext fun r => ?_)
    rw [Nat.succ_eq_add_one, Nat.add_assoc j 1, Nat.add_comm 1]

variable (memory key) in
theorem pbkdf2_F_eq (keyed : Keyed password hash0 [])
    (short : H.BLOCK_SIZE + salt.length + 4 < H.limit) (some_ : 0 < iter) {i : ℕ}
    (few : i + 1 < 256) :
    pbkdf2_F memory hash0 salt iter key i =
      if (i + 1) * H.HASH_SIZE ≤ 64 then
        some (place key (i * H.HASH_SIZE) (derivedBlock H password salt iter.toNat (i + 1)))
      else none := by
  have number : [0, 0, 0, UInt8.ofNat (i + 1)] = beBytes 4 (i + 1) := by
    simp [beBytes, Nat.div_eq_of_lt few]
  have first : ((hash0.update salt).update [0, 0, 0, UInt8.ofNat (i + 1)]).finalize memory =
      iterated H password salt (i + 1) 0 := by
    rw [number]
    refine ((keyed.update salt).update _).finalize memory ?_
    rw [List.nil_append, List.length_append, length_beBytes]
    omega
  have count : (iter - 1).toNat = iter.toNat - 1 :=
    UInt64.toNat_sub_of_le _ _ (UInt64.le_iff_toNat_le.2 (UInt64.lt_iff_toNat_lt.1 some_))
  unfold pbkdf2_F
  dsimp only
  rw [first, rounds_eq keyed, count]
  simp only [Nat.zero_add]
  rw [show (List.range (iter.toNat - 1)).foldl (fun T r => xorstr T
      (iterated H password salt (i + 1) (r + 1))) (iterated H password salt (i + 1) 0) =
    derivedBlock H password salt iter.toNat (i + 1) from rfl, length_derivedBlock, Nat.succ_mul]

variable (memory key) in
/-- The blocks are put one behind the other as long as there is room. -/
theorem blocks_run (keyed : Keyed password hash0 [])
    (short : H.BLOCK_SIZE + salt.length + 4 < H.limit) (some_ : 0 < iter) (n : ℕ)
    (room : n * H.HASH_SIZE ≤ 64) :
    ∃ key', (List.range n).foldlM (pbkdf2_F memory hash0 salt iter) key = some key' ∧
      key'.toList.take (n * H.HASH_SIZE) = (List.range n).flatMap fun i =>
        derivedBlock H password salt iter.toNat (i + 1) := by
  have pos := H.hash_pos
  induction n with
  | zero => exact ⟨key, rfl, by rw [Nat.zero_mul]; rfl⟩
  | succ n ih =>
    have less : n * H.HASH_SIZE + H.HASH_SIZE ≤ 64 := by rwa [Nat.succ_mul] at room
    have few : n ≤ n * H.HASH_SIZE := Nat.le_mul_of_pos_right n pos
    obtain ⟨key', ran, filled⟩ := ih (by omega)
    have step := pbkdf2_F_eq memory key' keyed short some_ (i := n) (by omega)
    rw [if_pos room] at step
    refine ⟨place key' (n * H.HASH_SIZE) (derivedBlock H password salt iter.toNat (n + 1)), ?_, ?_⟩
    · rw [List.range_succ, List.foldlM_append, ran, Option.bind_eq_bind, Option.bind_some,
        List.foldlM_cons, step]
      rfl
    · have taken := take_place key' (show n * H.HASH_SIZE +
        (derivedBlock H password salt iter.toNat (n + 1)).length ≤ 64 by
          rw [length_derivedBlock]
          omega)
      rw [length_derivedBlock, ← Nat.succ_mul, filled] at taken
      rw [taken, List.range_succ, List.flatMap_append, List.flatMap_singleton]

/-- The array of the key is overrun by a block that does not fit. -/
theorem blocks_overrun (keyed : Keyed password hash0 [])
    (short : H.BLOCK_SIZE + salt.length + 4 < H.limit) (some_ : 0 < iter) (n : ℕ)
    (full : 64 < n * H.HASH_SIZE) :
    (List.range n).foldlM (pbkdf2_F memory hash0 salt iter) key = none := by
  induction n with
  | zero => rw [Nat.zero_mul] at full; exact absurd full (Nat.not_lt_zero _)
  | succ n ih =>
    rw [List.range_succ, List.foldlM_append]
    by_cases before : 64 < n * H.HASH_SIZE
    · rw [ih before]
      rfl
    · have few : n ≤ n * H.HASH_SIZE := Nat.le_mul_of_pos_right n H.hash_pos
      obtain ⟨key', ran, -⟩ := blocks_run memory key keyed short some_ n (Nat.le_of_not_lt before)
      rw [ran, Option.bind_eq_bind, Option.bind_some, List.foldlM_cons,
        pbkdf2_F_eq memory key' keyed short some_ (by omega), if_neg (by omega)]
      rfl

/-- With room for its blocks the key is the one that the standard derives. -/
theorem derived_of_room (memory : H.State) (hash : Hmac H) (key : Vector UInt8 64) (key_len : ℕ)
    (shortPassword : password.length < H.limit)
    (shortSalt : H.BLOCK_SIZE + salt.length + 4 < H.limit) (some_ : 0 < iter)
    (room : numBlocks H key_len * H.HASH_SIZE ≤ 64) :
    ∃ key', set_password memory hash salt iter key_len key password = some key' ∧
      key'.toList.take key_len = derived H password salt iter.toNat key_len := by
  obtain ⟨key', ran, filled⟩ :=
    blocks_run memory key (init_keyed memory hash shortPassword) shortSalt some_ _ room
  have covers : key_len ≤ numBlocks H key_len * H.HASH_SIZE := by
    have pos := H.hash_pos
    have split := Nat.div_add_mod (key_len + H.HASH_SIZE - 1) H.HASH_SIZE
    have small := Nat.mod_lt (key_len + H.HASH_SIZE - 1) pos
    rw [numBlocks, Nat.mul_comm]
    omega
  refine ⟨key', ran, ?_⟩
  rw [derived, ← filled, List.take_take, Nat.min_eq_left covers]

/-- A key is the one that the standard derives just when its blocks fit into the array. -/
theorem derived_iff (memory : H.State) (hash : Hmac H) (key : Vector UInt8 64) (key_len : ℕ)
    (shortPassword : password.length < H.limit)
    (shortSalt : H.BLOCK_SIZE + salt.length + 4 < H.limit) (some_ : 0 < iter) :
    (∃ key', set_password memory hash salt iter key_len key password = some key' ∧
      key'.toList.take key_len = derived H password salt iter.toNat key_len) ↔
      numBlocks H key_len * H.HASH_SIZE ≤ 64 := by
  refine ⟨?_, derived_of_room memory hash key key_len shortPassword shortSalt some_⟩
  rintro ⟨key', ran, -⟩
  by_contra full
  exact nomatch ran.symm.trans (blocks_overrun (init_keyed memory hash shortPassword) shortSalt
    some_ _ (Nat.lt_of_not_le full))

theorem derived_two_rounds : (∃ key', set_password (H := sha512) blank ⟨blank, []⟩ [115] 2 64
      (Vector.replicate 64 0) [112] = some key' ∧
      key'.toList.take 64 = derived sha512 [112] [115] (2 : UInt64).toNat 64) ↔
    numBlocks sha512 64 * sha512.HASH_SIZE ≤ 64 :=
  derived_iff (H := sha512) blank ⟨blank, []⟩ (Vector.replicate 64 0) 64 (by decide) (by decide)
    (by decide)

end Derived

end Epilog.Common.KeyedDigest
