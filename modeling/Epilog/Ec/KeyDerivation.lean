/- Module: Epilog/Ec/KeyDerivation
   source: src/src/ec/keys.cpp, src/src/ec/keys.hpp,
     src/src/ec/builtins.cpp (execute_path, derive_child)
   digest: Child keys along paths: when the public and the private derivation agree. -/

import Mathlib.Algebra.Group.Nat.Defs
import Mathlib.Data.Int.Notation
import Mathlib.Data.List.GetD

set_option autoImplicit false

namespace Epilog.Ec.KeyDerivation

section Keys

abbrev Bytes (n : ℕ) := {l : List UInt8 // l.length = n}

def Bytes.zero (n : ℕ) : Bytes n := ⟨List.replicate n 0, List.length_replicate⟩

/-- What the keys are computed with: operations of secp256k1, each of which may fail, and hashes -/
structure Crypto where
  /-- `secp256k1_ec_pubkey_create`, serialized -/
  pubkeyCreate : Bytes 32 → Option (Bytes 33)
  /-- `secp256k1_ec_privkey_tweak_add` -/
  privkeyTweakAdd : Bytes 32 → Bytes 32 → Option (Bytes 32)
  /-- `secp256k1_ec_pubkey_tweak_add`, parsed before and serialized after it -/
  pubkeyTweakAdd : Bytes 33 → Bytes 32 → Option (Bytes 33)
  hmacSha512 : Bytes 32 → List UInt8 → Bytes 64
  /-- `compute_fingerprint`: the first bytes of the RIPEMD of the SHA-256 of a public key -/
  computeFingerprint : Bytes 33 → Bytes 4
  checksum : List UInt8 → Bytes 4

/-- Where adding to a private key gives a key, this has a public key, which is what adding to the
public key gives. -/
structure Crypto.Commutes (c : Crypto) : Prop where
  valid : ∀ il key child, c.privkeyTweakAdd il key = some child →
    (c.pubkeyCreate child).isSome = true
  tweak : ∀ il key pub child, c.pubkeyCreate key = some pub →
    c.privkeyTweakAdd il key = some child → c.pubkeyTweakAdd pub il = c.pubkeyCreate child

/-- `extended_key`, with the bytes of the key -/
structure ExtendedKey (size : ℕ) where
  key : Bytes size
  level : ℕ
  fingerprint : Bytes 4
  childNumber : UInt32
  chainCode : Bytes 32
  deriving DecidableEq

abbrev ExtendedPublicKey := ExtendedKey 33

abbrev ExtendedPrivateKey := ExtendedKey 32

def HARDENED_KEY : ℕ := 2 ^ 31

/-- `hd_keys::H` -/
def H (i : UInt32) : UInt32 := i + UInt32.ofNat HARDENED_KEY

end Keys

section Codec

variable {size : ℕ}

def be32 (n : UInt32) : List UInt8 :=
  [UInt8.ofNat (n.toNat / 2 ^ 24), UInt8.ofNat (n.toNat / 2 ^ 16), UInt8.ofNat (n.toNat / 2 ^ 8),
    UInt8.ofNat n.toNat]

def ofBe32 : List UInt8 → UInt32
  | [b0, b1, b2, b3] =>
    UInt32.ofNat (b0.toNat * 2 ^ 24 + b1.toNat * 2 ^ 16 + b2.toNat * 2 ^ 8 + b3.toNat)
  | _ => 0

def PUBLIC_VERSION : List UInt8 := [0x04, 0x88, 0xB2, 0x1E]

def PRIVATE_VERSION : List UInt8 := [0x04, 0x88, 0xAD, 0xE4]

/-- The bytes of `write` between the version and the key. The level is cut to a byte. -/
def writeMetadata (k : ExtendedKey size) : List UInt8 :=
  UInt8.ofNat k.level :: (k.fingerprint.val ++ (be32 k.childNumber ++ k.chainCode.val))

def writePublic (k : ExtendedPublicKey) : List UInt8 :=
  PUBLIC_VERSION ++ (writeMetadata k ++ k.key.val)

def writePrivate (k : ExtendedPrivateKey) : List UInt8 :=
  PRIVATE_VERSION ++ (writeMetadata k ++ 0 :: k.key.val)

def part (data : Bytes 78) (start len : ℕ) (inside : start + len ≤ 78) : Bytes len :=
  ⟨(data.val.drop start).take len, by
    rw [List.length_take, List.length_drop, data.property]
    omega⟩

/-- The fields that both kinds of keys read in the same places, with the key -/
def readFields (data : Bytes 78) (key : Bytes size) : ExtendedKey size where
  key := key
  level := (data.val.getD 4 0).toNat
  fingerprint := part data 5 4 (by decide)
  childNumber := ofBe32 (part data 9 4 (by decide)).val
  chainCode := part data 13 32 (by decide)

def readPublic (data : Bytes 78) : Option ExtendedPublicKey :=
  if data.val.take 4 = PUBLIC_VERSION then some (readFields data (part data 45 33 (by decide)))
  else none

def readPrivate (data : Bytes 78) : Option ExtendedPrivateKey :=
  if data.val.take 4 = PRIVATE_VERSION ∧ data.val.getD 45 0 = 0 then
    some (readFields data (part data 46 32 (by decide)))
  else none

variable (c : Crypto)

/-- `to_term`: the bytes of the bignum -/
def encodePublic (k : ExtendedPublicKey) : List UInt8 :=
  writePublic k ++ (c.checksum (writePublic k)).val

def encodePrivate (k : ExtendedPrivateKey) : List UInt8 :=
  writePrivate k ++ (c.checksum (writePrivate k)).val

end Codec

section Derivation

variable (c : Crypto)

/-- `compute_public_key` on a cleared key, which a failure leaves cleared -/
def computePublicKey (key : Bytes 32) : Bytes 33 := (c.pubkeyCreate key).getD (Bytes.zero 33)

def computeExtendedPublicKey (k : ExtendedPrivateKey) : ExtendedPublicKey where
  key := computePublicKey c k.key
  level := k.level
  fingerprint := k.fingerprint
  childNumber := k.childNumber
  chainCode := k.chainCode

/-- The two halves of the hash of a chain code, the data of a key and an index -/
def hashIL (chainCode : Bytes 32) (data : List UInt8) (index : UInt32) : Bytes 32 :=
  let hash := c.hmacSha512 chainCode (data ++ be32 index)
  ⟨hash.val.take 32, by
    rw [List.length_take, hash.property]
    rfl⟩

def hashIR (chainCode : Bytes 32) (data : List UInt8) (index : UInt32) : Bytes 32 :=
  let hash := c.hmacSha512 chainCode (data ++ be32 index)
  ⟨hash.val.drop 32, by rw [List.length_drop, hash.property]⟩

/-- `generate_child` of a public key into the key itself: whether it succeeds, and the key, of which
a failure leaves the bytes and the chain code -/
def generateChildPublic (parent : ExtendedPublicKey) (index : UInt32) : Bool × ExtendedPublicKey :=
  let out := { parent with
    level := parent.level + 1
    fingerprint := c.computeFingerprint parent.key
    childNumber := index }
  match c.pubkeyTweakAdd parent.key (hashIL c parent.chainCode parent.key.val index) with
  | none => (false, out)
  | some key => (true, { out with
      key := key
      chainCode := hashIR c parent.chainCode parent.key.val index })

/-- The data of a private key that is hashed -/
def privateData (parent : ExtendedPrivateKey) (index : UInt32) : List UInt8 :=
  if HARDENED_KEY ≤ index.toNat then 0 :: parent.key.val else (computePublicKey c parent.key).val

/-- `generate_child` of a private key -/
def generateChildPrivateInto (parent : ExtendedPrivateKey) (index : UInt32)
    (out : ExtendedPrivateKey) : Bool × ExtendedPrivateKey :=
  let out := { out with
    level := parent.level + 1
    fingerprint := c.computeFingerprint (computePublicKey c parent.key)
    childNumber := index }
  let data := privateData c parent index
  match c.privkeyTweakAdd (hashIL c parent.chainCode data index) parent.key with
  | none => (false, out)
  | some key => (true, { out with key := key, chainCode := hashIR c parent.chainCode data index })

/-- `generate_child` of a private key into the key itself, as `execute_path` calls it -/
def generateChildPrivate (parent : ExtendedPrivateKey) (index : UInt32) :
    Bool × ExtendedPrivateKey :=
  generateChildPrivateInto c parent index parent

/-- `generate_child` of a public key from a private one, which takes the child from a cleared
private key -/
def generateChildPublicOf (parent : ExtendedPrivateKey) (index : UInt32) :
    Bool × ExtendedPublicKey :=
  let cleared : ExtendedPrivateKey := {
    key := Bytes.zero 32
    level := 0
    fingerprint := Bytes.zero 4
    childNumber := 0
    chainCode := Bytes.zero 32 }
  let child := generateChildPrivateInto c parent index cleared
  (true, {
    key := computePublicKey c child.2.key
    level := child.2.level
    fingerprint := c.computeFingerprint (computePublicKey c parent.key)
    childNumber := child.2.childNumber
    chainCode := child.2.chainCode })

end Derivation

section Paths

/-- A path, as far as `execute_path` looks at it -/
inductive PathTerm
  | slash (path op : PathTerm)
  | h (arg : PathTerm)
  | m
  | int (v : ℤ)
  | other
  deriving DecidableEq

inductive KeyException
  | notAKey
  | checksumFailed
  | publicParent
  | unreadable
  | unrecognized
  | unexpectedComponent
  | hardenedPublic
  | hardenedRange
  | childRange
  deriving DecidableEq

/-- `ops` -/
def components : PathTerm → List PathTerm
  | .slash path op => components path ++ [op]
  | path => [path]

variable {Key : Type}

/-- One round of `execute_path`, for keys that may be private, with their `generate_child`, of which
the result is not looked at -/
def executeOp (isPrivate : Bool) (generateChild : Key → UInt32 → Bool × Key) (first : Bool)
    (key : Key) : PathTerm → Except KeyException Key
  | .h arg =>
    if isPrivate then
      match arg with
      | .int v =>
        if v < 0 ∨ HARDENED_KEY ≤ v then .error .hardenedRange
        else .ok (generateChild key (H (UInt32.ofNat v.toNat))).2
      | _ => .error .unexpectedComponent
    else .error .hardenedPublic
  | .m => if first then .ok key else .error .unexpectedComponent
  | .int v =>
    if v < 0 ∨ HARDENED_KEY ≤ v then .error .childRange
    else .ok (generateChild key (UInt32.ofNat v.toNat)).2
  | _ => .error .unexpectedComponent

def executeOps (isPrivate : Bool) (generateChild : Key → UInt32 → Bool × Key) :
    Bool → Key → List PathTerm → Except KeyException Key
  | _, key, [] => .ok key
  | first, key, op :: ops => do
    let key ← executeOp isPrivate generateChild first key op
    executeOps isPrivate generateChild false key ops

def executePath (isPrivate : Bool) (generateChild : Key → UInt32 → Bool × Key) (key : Key)
    (path : PathTerm) : Except KeyException Key :=
  executeOps isPrivate generateChild true key (components path)

variable (c : Crypto)

/-- The first 78 bytes of a key, if it has 82 -/
def payload (parent : List UInt8) (size : parent.length = 82) : Bytes 78 :=
  ⟨parent.take 78, by
    rw [List.length_take, size]
    rfl⟩

/-- `derive_child`, for `child_pubkey/3` or `child_privkey/3` -/
def deriveChild (privkey : Bool) (parent : List UInt8) (path : PathTerm) :
    Except KeyException (List UInt8) :=
  if size : parent.length = 82 then
    if (c.checksum (parent.take 78)).val ≠ parent.drop 78 then .error .checksumFailed
    else if parent.take 4 = PUBLIC_VERSION then
      if privkey then .error .publicParent
      else
        match readPublic (payload parent size) with
        | none => .error .unreadable
        | some xpub => do
          let key ← executePath false (generateChildPublic c) xpub path
          .ok (encodePublic c key)
    else if parent.take 4 = PRIVATE_VERSION then
      match readPrivate (payload parent size) with
      | none => .error .unreadable
      | some xpriv => do
        let key ← executePath true (generateChildPrivate c) xpriv path
        if privkey then .ok (encodePrivate c key)
        else .ok (encodePublic c (computeExtendedPublicKey c key))
    else .error .unrecognized
  else .error .notAKey

def childPubkey (parent : List UInt8) (path : PathTerm) : Except KeyException (List UInt8) :=
  deriveChild c false parent path

def childPrivkey (parent : List UInt8) (path : PathTerm) : Except KeyException (List UInt8) :=
  deriveChild c true parent path

end Paths

section RoundTrip

variable {size : ℕ}

theorem ofBe32_be32 (n : UInt32) : ofBe32 (be32 n) = n := by
  have bound := n.toNat_lt
  apply UInt32.toNat_inj.mp
  simp only [be32, ofBe32, UInt32.toNat_ofNat', UInt8.toNat_ofNat']
  omega

theorem part_eq {data : Bytes 78} {start len : ℕ} {inside : start + len ≤ 78}
    (before piece after : List UInt8) (pieces : data.val = before ++ (piece ++ after))
    (beforeLength : before.length = start) (pieceLength : piece.length = len) :
    (part data start len inside).val = piece := by
  show (data.val.drop start).take len = piece
  rw [pieces, ← beforeLength, List.drop_left, ← pieceLength, List.take_left]

theorem readFields_metadata {data : Bytes 78} {k : ExtendedKey size} (version after : List UInt8)
    (short : k.level < 256) (versionLength : version.length = 4)
    (pieces : data.val = version ++ (writeMetadata k ++ after)) :
    readFields data k.key = k := by
  have level : (data.val.getD 4 0).toNat = k.level := by
    rw [pieces, List.getD_append_right _ _ _ _ (Nat.le_of_eq versionLength), versionLength]
    show (UInt8.ofNat k.level).toNat = k.level
    rw [UInt8.toNat_ofNat', Nat.mod_eq_of_lt short]
  have fingerprint : part data 5 4 (by decide) = k.fingerprint :=
    Subtype.ext (part_eq (version ++ [UInt8.ofNat k.level]) k.fingerprint.val
      (be32 k.childNumber ++ (k.chainCode.val ++ after))
      (by rw [pieces]; simp [writeMetadata]) (by simp [versionLength]) k.fingerprint.property)
  have number : (part data 9 4 (by decide)).val = be32 k.childNumber :=
    part_eq (version ++ (UInt8.ofNat k.level :: k.fingerprint.val)) (be32 k.childNumber)
      (k.chainCode.val ++ after) (by rw [pieces]; simp [writeMetadata])
      (by simp [versionLength, k.fingerprint.property]) rfl
  have chainCode : part data 13 32 (by decide) = k.chainCode :=
    Subtype.ext (part_eq
      (version ++ (UInt8.ofNat k.level :: (k.fingerprint.val ++ be32 k.childNumber)))
      k.chainCode.val after (by rw [pieces]; simp [writeMetadata])
      (by simp [versionLength, k.fingerprint.property, be32]) k.chainCode.property)
  unfold readFields
  rw [level, fingerprint, number, ofBe32_be32, chainCode]

theorem writeMetadata_length (k : ExtendedKey size) : (writeMetadata k).length = 41 := by
  simp [writeMetadata, be32, k.fingerprint.property, k.chainCode.property]

@[simp] theorem writePublic_length (k : ExtendedPublicKey) : (writePublic k).length = 78 := by
  simp [writePublic, PUBLIC_VERSION, writeMetadata_length, k.key.property]

@[simp] theorem writePrivate_length (k : ExtendedPrivateKey) : (writePrivate k).length = 78 := by
  simp [writePrivate, PRIVATE_VERSION, writeMetadata_length, k.key.property]

theorem readPublic_write {data : Bytes 78} {k : ExtendedPublicKey} (short : k.level < 256)
    (written : data.val = writePublic k) : readPublic data = some k := by
  have version : data.val.take 4 = PUBLIC_VERSION := by
    rw [written]
    rfl
  have key : part data 45 33 (by decide) = k.key :=
    Subtype.ext (part_eq (PUBLIC_VERSION ++ writeMetadata k) k.key.val [] (by
      rw [written]
      simp [writePublic]) (by simp [PUBLIC_VERSION, writeMetadata_length]) k.key.property)
  unfold readPublic
  rw [if_pos version, key, readFields_metadata PUBLIC_VERSION k.key.val short rfl written]

theorem readPrivate_write {data : Bytes 78} {k : ExtendedPrivateKey} (short : k.level < 256)
    (written : data.val = writePrivate k) : readPrivate data = some k := by
  have version : data.val.take 4 = PRIVATE_VERSION := by
    rw [written]
    rfl
  have pad : data.val.getD 45 0 = 0 := by
    have split : data.val = (PRIVATE_VERSION ++ writeMetadata k) ++ 0 :: k.key.val := by
      rw [written]
      simp [writePrivate]
    have size : (PRIVATE_VERSION ++ writeMetadata k).length = 45 := by
      simp [PRIVATE_VERSION, writeMetadata_length]
    rw [split, List.getD_append_right _ _ _ _ (Nat.le_of_eq size), size]
    rfl
  have key : part data 46 32 (by decide) = k.key :=
    Subtype.ext (part_eq (PRIVATE_VERSION ++ (writeMetadata k ++ [0])) k.key.val [] (by
      rw [written]
      simp [writePrivate]) (by simp [PRIVATE_VERSION, writeMetadata_length]) k.key.property)
  unfold readPrivate
  rw [if_pos ⟨version, pad⟩, key,
    readFields_metadata PRIVATE_VERSION (0 :: k.key.val) short rfl written]

theorem writePrivate_injective {k k' : ExtendedPrivateKey} (short : k.level < 256)
    (short' : k'.level < 256) (same : writePrivate k = writePrivate k') : k = k' := by
  let data : Bytes 78 := ⟨writePrivate k, writePrivate_length k⟩
  have read : readPrivate data = some k := readPrivate_write short rfl
  have read' : readPrivate data = some k' := readPrivate_write short' same
  exact Option.some.inj (read.symm.trans read')

end RoundTrip

section Steps

/-- A step to a child, by its number -/
inductive Step
  | child (i : Fin (2 ^ 31))
  | hardened (i : Fin (2 ^ 31))
  deriving DecidableEq

def Step.isHardened : Step → Bool
  | .child _ => false
  | .hardened _ => true

/-- The index of the child in `generate_child` -/
def Step.index : Step → UInt32
  | .child i => UInt32.ofNat i
  | .hardened i => H (UInt32.ofNat i)

def Step.term : Step → PathTerm
  | .child i => .int i
  | .hardened i => .h (.int i)

/-- A path, which may start at `m`, and the steps along it -/
inductive IsPath : PathTerm → List Step → Prop
  | root : IsPath .m []
  | first (s : Step) : IsPath s.term [s]
  | slash {p : PathTerm} {ss : List Step} (s : Step) :
    IsPath p ss → IsPath (.slash p s.term) (ss ++ [s])

/-- A path with further steps -/
def extend (p : PathTerm) (ss : List Step) : PathTerm := ss.foldl (fun p s => .slash p s.term) p

theorem IsPath.extend {p : PathTerm} {ps : List Step} (path : IsPath p ps) (qs : List Step) :
    IsPath (extend p qs) (ps ++ qs) := by
  induction qs generalizing p ps with
  | nil =>
    rw [List.append_nil]
    exact path
  | cons s qs ih =>
    have rest := ih (path.slash s)
    rw [List.append_assoc] at rest
    exact rest

variable {Key : Type}

/-- Where the steps lead, whether or not each of them succeeds -/
def walk (generateChild : Key → UInt32 → Bool × Key) (key : Key) (ss : List Step) : Key :=
  ss.foldl (fun key s => (generateChild key s.index).2) key

theorem walk_append (generateChild : Key → UInt32 → Bool × Key) (key : Key) (ps qs : List Step) :
    walk generateChild key (ps ++ qs) = walk generateChild (walk generateChild key ps) qs :=
  List.foldl_append

variable (isPrivate : Bool) (generateChild : Key → UInt32 → Bool × Key)

theorem index_inRange (i : Fin (2 ^ 31)) : ¬ (((i.val : ℕ) : ℤ) < 0 ∨
    (HARDENED_KEY : ℤ) ≤ ((i.val : ℕ) : ℤ)) := by
  have bound := i.isLt
  unfold HARDENED_KEY
  omega

theorem executeOp_term (first : Bool) (key : Key) {s : Step}
    (allowed : isPrivate = true ∨ s.isHardened = false) :
    executeOp isPrivate generateChild first key s.term = .ok (generateChild key s.index).2 := by
  cases s with
  | child i =>
    simp only [Step.term, executeOp, if_neg (index_inRange i)]
    rfl
  | hardened i =>
    have private_ : isPrivate = true := allowed.resolve_right (by simp [Step.isHardened])
    simp only [Step.term, executeOp, if_pos private_, if_neg (index_inRange i)]
    rfl

theorem executeOp_hardened (first : Bool) (key : Key) {s : Step} (hard : s.isHardened = true) :
    executeOp false generateChild first key s.term = .error .hardenedPublic := by
  cases s with
  | child i => cases hard
  | hardened i => rfl

theorem components_ne_nil (p : PathTerm) : components p ≠ [] := by
  cases p <;> simp [components]

theorem executeOps_single (first : Bool) (key : Key) (op : PathTerm) :
    executeOps isPrivate generateChild first key [op] =
      executeOp isPrivate generateChild first key op := by
  unfold executeOps executeOps
  cases executeOp isPrivate generateChild first key op <;> rfl

theorem executeOps_concat (first : Bool) (key : Key) (ops : List PathTerm) (op : PathTerm) :
    executeOps isPrivate generateChild first key (ops ++ [op]) =
      (executeOps isPrivate generateChild first key ops).bind fun key =>
        executeOp isPrivate generateChild (first && ops.isEmpty) key op := by
  induction ops generalizing first key with
  | nil =>
    rw [List.nil_append, executeOps_single, List.isEmpty_nil, Bool.and_true]
    rfl
  | cons o ops ih =>
    simp only [List.cons_append, executeOps, List.isEmpty_cons, Bool.and_false]
    cases executeOp isPrivate generateChild first key o with
    | error e => rfl
    | ok key' => exact ih false key'

theorem executePath_slash (key : Key) (p op : PathTerm) :
    executePath isPrivate generateChild key (.slash p op) =
      (executePath isPrivate generateChild key p).bind fun key =>
        executeOp isPrivate generateChild false key op := by
  have started : (components p).isEmpty = false :=
    List.isEmpty_eq_false_iff.mpr (components_ne_nil p)
  show executeOps isPrivate generateChild true key (components p ++ [op]) = _
  rw [executeOps_concat, started, Bool.and_false]
  rfl

theorem executePath_term (key : Key) (s : Step) :
    executePath isPrivate generateChild key s.term =
      executeOp isPrivate generateChild true key s.term := by
  have alone : components s.term = [s.term] := by cases s <;> rfl
  show executeOps isPrivate generateChild true key (components s.term) = _
  rw [alone, executeOps_single]

theorem executePath_walk {p : PathTerm} {ss : List Step} (path : IsPath p ss) (key : Key)
    (allowed : isPrivate = true ∨ ∀ s ∈ ss, s.isHardened = false) :
    executePath isPrivate generateChild key p = .ok (walk generateChild key ss) := by
  induction path with
  | root => rfl
  | first s =>
    rw [executePath_term]
    exact executeOp_term _ _ _ _ (allowed.imp_right fun soft => soft s (List.mem_singleton_self s))
  | slash s before ih =>
    have reached := ih (allowed.imp_right fun soft s' member =>
      soft s' (List.mem_append_left _ member))
    rw [executePath_slash, reached, walk_append]
    exact executeOp_term _ _ _ _
      (allowed.imp_right fun soft => soft s (List.mem_append_right _ (List.mem_singleton_self s)))

theorem executePath_hardened {p : PathTerm} {ss : List Step} (path : IsPath p ss) (key : Key)
    (hard : ∃ s ∈ ss, s.isHardened = true) :
    executePath false generateChild key p = .error .hardenedPublic := by
  induction path with
  | root =>
    obtain ⟨s, member, -⟩ := hard
    cases member
  | first s =>
    obtain ⟨s', member, hardened⟩ := hard
    rw [List.mem_singleton.mp member] at hardened
    rw [executePath_term, executeOp_hardened _ _ _ hardened]
  | @slash p ss s before ih =>
    rw [executePath_slash]
    by_cases earlier : ∃ s ∈ ss, s.isHardened = true
    · rw [ih earlier]
      rfl
    · have soft : ∀ s ∈ ss, s.isHardened = false := by simpa using earlier
      have last : s.isHardened = true := by
        obtain ⟨s', member, hardened⟩ := hard
        rcases List.mem_append.mp member with inside | atEnd
        · exact absurd ⟨s', inside, hardened⟩ earlier
        · rwa [List.mem_singleton.mp atEnd] at hardened
      rw [executePath_walk false generateChild before key (Or.inr soft)]
      exact executeOp_hardened _ _ _ last

end Steps

section Children

variable (c : Crypto)

@[simp] theorem encodePublic_length (k : ExtendedPublicKey) : (encodePublic c k).length = 82 := by
  simp [encodePublic, (c.checksum (writePublic k)).property]

@[simp] theorem encodePrivate_length (k : ExtendedPrivateKey) :
    (encodePrivate c k).length = 82 := by
  simp [encodePrivate, (c.checksum (writePrivate k)).property]

theorem take_encodePublic (k : ExtendedPublicKey) : (encodePublic c k).take 78 = writePublic k := by
  unfold encodePublic
  rw [List.take_append_of_le_length (by simp), List.take_of_length_le (by simp)]

theorem take_encodePrivate (k : ExtendedPrivateKey) :
    (encodePrivate c k).take 78 = writePrivate k := by
  unfold encodePrivate
  rw [List.take_append_of_le_length (by simp), List.take_of_length_le (by simp)]

theorem drop_encodePublic (k : ExtendedPublicKey) :
    (encodePublic c k).drop 78 = (c.checksum (writePublic k)).val := by
  unfold encodePublic
  rw [List.drop_left' (writePublic_length k)]

theorem drop_encodePrivate (k : ExtendedPrivateKey) :
    (encodePrivate c k).drop 78 = (c.checksum (writePrivate k)).val := by
  unfold encodePrivate
  rw [List.drop_left' (writePrivate_length k)]

theorem childPubkey_encodePublic {k : ExtendedPublicKey} (short : k.level < 256) (p : PathTerm) :
    childPubkey c (encodePublic c k) p =
      (executePath false (generateChildPublic c) k p).map (encodePublic c) := by
  have intact : ¬ (c.checksum ((encodePublic c k).take 78)).val ≠ (encodePublic c k).drop 78 := by
    rw [take_encodePublic, drop_encodePublic]
    exact fun differ => differ rfl
  have version : (encodePublic c k).take 4 = PUBLIC_VERSION := rfl
  have read : readPublic (payload (encodePublic c k) (encodePublic_length c k)) = some k :=
    readPublic_write short (take_encodePublic c k)
  unfold childPubkey deriveChild
  rw [dif_pos (encodePublic_length c k), if_neg intact, if_pos version,
    if_neg Bool.false_ne_true, read]
  dsimp only
  cases executePath false (generateChildPublic c) k p <;> rfl

theorem deriveChild_encodePrivate {k : ExtendedPrivateKey} (short : k.level < 256)
    (privkey : Bool) (p : PathTerm) :
    deriveChild c privkey (encodePrivate c k) p =
      (executePath true (generateChildPrivate c) k p).map fun key =>
        if privkey then encodePrivate c key
        else encodePublic c (computeExtendedPublicKey c key) := by
  have intact : ¬ (c.checksum ((encodePrivate c k).take 78)).val ≠
      (encodePrivate c k).drop 78 := by
    rw [take_encodePrivate, drop_encodePrivate]
    exact fun differ => differ rfl
  have version : (encodePrivate c k).take 4 = PRIVATE_VERSION := rfl
  have notPublic : ¬ (encodePrivate c k).take 4 = PUBLIC_VERSION := by
    rw [version]
    decide
  have read : readPrivate (payload (encodePrivate c k) (encodePrivate_length c k)) = some k :=
    readPrivate_write short (take_encodePrivate c k)
  unfold deriveChild
  rw [dif_pos (encodePrivate_length c k), if_neg intact, if_neg notPublic, if_pos version, read]
  dsimp only
  cases executePath true (generateChildPrivate c) k p with
  | error e => rfl
  | ok key => cases privkey <;> rfl

variable {p : PathTerm} {ss : List Step}

theorem childPrivkey_walk (path : IsPath p ss) {k : ExtendedPrivateKey} (short : k.level < 256) :
    childPrivkey c (encodePrivate c k) p =
      .ok (encodePrivate c (walk (generateChildPrivate c) k ss)) := by
  unfold childPrivkey
  rw [deriveChild_encodePrivate c short, executePath_walk _ _ path k (Or.inl rfl)]
  rfl

theorem childPubkey_walk (path : IsPath p ss) {k : ExtendedPrivateKey} (short : k.level < 256) :
    childPubkey c (encodePrivate c k) p =
      .ok (encodePublic c (computeExtendedPublicKey c (walk (generateChildPrivate c) k ss))) := by
  unfold childPubkey
  rw [deriveChild_encodePrivate c short, executePath_walk _ _ path k (Or.inl rfl)]
  rfl

theorem childPubkey_walkPublic (path : IsPath p ss) {k : ExtendedPublicKey} (short : k.level < 256)
    (soft : ∀ s ∈ ss, s.isHardened = false) :
    childPubkey c (encodePublic c k) p =
      .ok (encodePublic c (walk (generateChildPublic c) k ss)) := by
  rw [childPubkey_encodePublic c short, executePath_walk _ _ path k (Or.inr soft)]
  rfl

theorem childPubkey_hardened (path : IsPath p ss) {k : ExtendedPublicKey} (short : k.level < 256)
    (hard : ∃ s ∈ ss, s.isHardened = true) :
    childPubkey c (encodePublic c k) p = .error .hardenedPublic := by
  rw [childPubkey_encodePublic c short, executePath_hardened _ path k hard]
  rfl

end Children

end Epilog.Ec.KeyDerivation
