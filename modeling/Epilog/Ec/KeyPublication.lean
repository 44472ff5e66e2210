/- Module: Epilog/Ec/KeyPublication
   source: src/src/ec/keys.cpp (hd_keys::generate_child),
     src/src/ec/builtins.cpp (child_pubkey/3, child_privkey/3)
   digest: Deriving keys along paths commutes with publication and composes, up to the steps that
     fail and the depths that are cut. -/

import Epilog.Ec.KeyDerivation

set_option autoImplicit false

namespace Epilog.Ec.KeyPublication

open KeyDerivation

section Steps

/-- Every step is valid at the key where it is taken. -/
def Along {Key : Type} (valid : Key → Step → Prop) (generateChild : Key → UInt32 → Bool × Key) :
    Key → List Step → Prop
  | _, [] => True
  | key, s :: ss => valid key s ∧ Along valid generateChild (generateChild key s.index).2 ss

theorem along_append {Key : Type} {valid : Key → Step → Prop}
    {generateChild : Key → UInt32 → Bool × Key} (key : Key) (ps qs : List Step) :
    Along valid generateChild key (ps ++ qs) ↔
      Along valid generateChild key ps ∧
        Along valid generateChild (walk generateChild key ps) qs := by
  induction ps generalizing key with
  | nil => exact ⟨fun rest => ⟨trivial, rest⟩, And.right⟩
  | cons s ps ih =>
    show _ ∧ Along _ _ _ (ps ++ qs) ↔ (_ ∧ Along _ _ _ ps) ∧ _
    rw [ih, and_assoc]
    rfl

variable (c : Crypto)

/-- What `generate_child` hashes with the chain code for a step of a private key -/
def stepHash (k : ExtendedPrivateKey) (s : Step) : Bytes 32 :=
  hashIL c k.chainCode (privateData c k s.index) s.index

/-- The parent is a key, and so is the child. -/
def StepValid (k : ExtendedPrivateKey) (s : Step) : Prop :=
  (c.pubkeyCreate k.key).isSome = true ∧ (c.privkeyTweakAdd (stepHash c k s) k.key).isSome = true

/-- The step is not hardened, and the child is a key. -/
def PublicStepValid (k : ExtendedPublicKey) (s : Step) : Prop :=
  s.isHardened = false ∧
    (c.pubkeyTweakAdd k.key (hashIL c k.chainCode k.key.val s.index)).isSome = true

def ValidSteps : ExtendedPrivateKey → List Step → Prop :=
  Along (StepValid c) (generateChildPrivate c)

def ValidPublicSteps : ExtendedPublicKey → List Step → Prop :=
  Along (PublicStepValid c) (generateChildPublic c)

end Steps

section PublicPart

variable {c : Crypto}

/-- The public part of a private key: its public key, with the other fields as they are -/
structure IsPublicPart (c : Crypto) (pub : ExtendedPublicKey) (k : ExtendedPrivateKey) : Prop where
  key : c.pubkeyCreate k.key = some pub.key
  level : pub.level = k.level
  fingerprint : pub.fingerprint = k.fingerprint
  childNumber : pub.childNumber = k.childNumber
  chainCode : pub.chainCode = k.chainCode

theorem computePublicKey_eq {key : Bytes 32} {pub : Bytes 33}
    (created : c.pubkeyCreate key = some pub) : computePublicKey c key = pub := by
  rw [computePublicKey, created]
  rfl

theorem isPublicPart_compute {k : ExtendedPrivateKey}
    (valid : (c.pubkeyCreate k.key).isSome = true) :
    IsPublicPart c (computeExtendedPublicKey c k) k := by
  obtain ⟨pub, created⟩ := Option.isSome_iff_exists.mp valid
  refine ⟨?_, rfl, rfl, rfl, rfl⟩
  show c.pubkeyCreate k.key = some (computePublicKey c k.key)
  rw [computePublicKey_eq created, created]

theorem IsPublicPart.unique {pub : ExtendedPublicKey} {k : ExtendedPrivateKey}
    (part : IsPublicPart c pub k) : pub = computeExtendedPublicKey c k := by
  obtain ⟨key, level, fingerprint, childNumber, chainCode⟩ := part
  cases pub
  simp only at key level fingerprint childNumber chainCode
  subst level fingerprint childNumber chainCode
  rw [computeExtendedPublicKey, computePublicKey_eq key]

theorem generateChildPrivate_level (k : ExtendedPrivateKey) (index : UInt32) :
    (generateChildPrivate c k index).2.level = k.level + 1 := by
  unfold generateChildPrivate generateChildPrivateInto
  dsimp only
  split <;> rfl

theorem generateChildPublic_level (k : ExtendedPublicKey) (index : UInt32) :
    (generateChildPublic c k index).2.level = k.level + 1 := by
  unfold generateChildPublic
  dsimp only
  split <;> rfl

theorem walk_level {size : ℕ} {generateChild : ExtendedKey size → UInt32 → Bool × ExtendedKey size}
    (deeper : ∀ k index, (generateChild k index).2.level = k.level + 1) (k : ExtendedKey size)
    (ss : List Step) : (walk generateChild k ss).level = k.level + ss.length := by
  induction ss generalizing k with
  | nil => rfl
  | cons s ss ih =>
    show (walk generateChild (generateChild k s.index).2 ss).level = _
    rw [ih, deeper, List.length_cons]
    omega

theorem walkPrivate_short {k : ExtendedPrivateKey} {ss : List Step}
    (depth : k.level + ss.length ≤ 255) : (walk (generateChildPrivate c) k ss).level < 256 := by
  rw [walk_level generateChildPrivate_level]
  omega

theorem walkPublic_short {k : ExtendedPublicKey} {ss : List Step}
    (depth : k.level + ss.length ≤ 255) : (walk (generateChildPublic c) k ss).level < 256 := by
  rw [walk_level generateChildPublic_level]
  omega

theorem generateChildPrivate_valid {k : ExtendedPrivateKey} {s : Step} {child : Bytes 32}
    (added : c.privkeyTweakAdd (stepHash c k s) k.key = some child) :
    generateChildPrivate c k s.index = (true, {
      key := child
      level := k.level + 1
      fingerprint := c.computeFingerprint (computePublicKey c k.key)
      childNumber := s.index
      chainCode := hashIR c k.chainCode (privateData c k s.index) s.index }) := by
  unfold stepHash at added
  unfold generateChildPrivate generateChildPrivateInto
  dsimp only
  rw [added]

theorem valid_child (commutes : c.Commutes) {k : ExtendedPrivateKey} {s : Step}
    (valid : StepValid c k s) :
    (c.pubkeyCreate (generateChildPrivate c k s.index).2.key).isSome = true := by
  obtain ⟨child, added⟩ := Option.isSome_iff_exists.mp valid.2
  rw [generateChildPrivate_valid added]
  exact commutes.valid _ _ _ added

theorem valid_walk (commutes : c.Commutes) {k : ExtendedPrivateKey} {ss : List Step}
    (start : (c.pubkeyCreate k.key).isSome = true) (valid : ValidSteps c k ss) :
    (c.pubkeyCreate (walk (generateChildPrivate c) k ss).key).isSome = true := by
  induction ss generalizing k with
  | nil => exact start
  | cons s ss ih => exact ih (valid_child commutes valid.1) valid.2

theorem index_not_hardened {s : Step} (soft : s.isHardened = false) :
    ¬ HARDENED_KEY ≤ s.index.toNat := by
  cases s with
  | child i =>
    have bound := i.isLt
    unfold Step.index HARDENED_KEY
    rw [UInt32.toNat_ofNat']
    omega
  | hardened i => cases soft

theorem IsPublicPart.child (commutes : c.Commutes) {pub : ExtendedPublicKey}
    {k : ExtendedPrivateKey} {s : Step} (part : IsPublicPart c pub k) (valid : StepValid c k s)
    (soft : s.isHardened = false) :
    PublicStepValid c pub s ∧
      IsPublicPart c (generateChildPublic c pub s.index).2
        (generateChildPrivate c k s.index).2 := by
  obtain ⟨child, added⟩ := Option.isSome_iff_exists.mp valid.2
  obtain ⟨childPub, created⟩ := Option.isSome_iff_exists.mp (commutes.valid _ _ _ added)
  have sameKey : computePublicKey c k.key = pub.key := computePublicKey_eq part.key
  have data : privateData c k s.index = pub.key.val := by
    unfold privateData
    rw [if_neg (index_not_hardened soft), sameKey]
  have hash : stepHash c k s = hashIL c pub.chainCode pub.key.val s.index := by
    rw [stepHash, data, part.chainCode]
  have publicAdded : c.pubkeyTweakAdd pub.key (hashIL c pub.chainCode pub.key.val s.index) =
      some childPub := by
    rw [← hash, commutes.tweak _ _ _ _ part.key added, created]
  refine ⟨⟨soft, Option.isSome_iff_exists.mpr ⟨childPub, publicAdded⟩⟩, ?_⟩
  rw [generateChildPrivate_valid added]
  unfold generateChildPublic
  dsimp only
  rw [publicAdded]
  exact ⟨created, congrArg (· + 1) part.level, by rw [sameKey], rfl, by rw [data, part.chainCode]⟩

theorem IsPublicPart.walk (commutes : c.Commutes) {pub : ExtendedPublicKey}
    {k : ExtendedPrivateKey} {ss : List Step} (part : IsPublicPart c pub k)
    (valid : ValidSteps c k ss) (soft : ∀ s ∈ ss, s.isHardened = false) :
    ValidPublicSteps c pub ss ∧
      IsPublicPart c (walk (generateChildPublic c) pub ss)
        (walk (generateChildPrivate c) k ss) := by
  induction ss generalizing pub k with
  | nil => exact ⟨trivial, part⟩
  | cons s ss ih =>
    obtain ⟨stepValid, childPart⟩ := part.child commutes valid.1 (soft s List.mem_cons_self)
    obtain ⟨rest, reached⟩ := ih childPart valid.2 fun s' member =>
      soft s' (List.mem_cons_of_mem _ member)
    exact ⟨⟨stepValid, rest⟩, reached⟩

theorem generateChildPublicOf_eq {k : ExtendedPrivateKey} {s : Step} (valid : StepValid c k s) :
    (generateChildPublicOf c k s.index).2 =
      computeExtendedPublicKey c (generateChildPrivate c k s.index).2 := by
  obtain ⟨child, added⟩ := Option.isSome_iff_exists.mp valid.2
  rw [generateChildPrivate_valid added]
  unfold stepHash at added
  unfold generateChildPublicOf generateChildPrivateInto
  dsimp only
  rw [added]
  rfl

/-- A path of private keys whose last step publishes the child ends where publishing each step
does, if none of them is hardened. -/
theorem publish_last (commutes : c.Commutes) {k : ExtendedPrivateKey} {ss : List Step} {s : Step}
    (valid : ValidSteps c k (ss ++ [s])) :
    IsPublicPart c (generateChildPublicOf c (walk (generateChildPrivate c) k ss) s.index).2
        (walk (generateChildPrivate c) k (ss ++ [s])) ∧
      ((∀ t ∈ ss ++ [s], t.isHardened = false) →
        (generateChildPublicOf c (walk (generateChildPrivate c) k ss) s.index).2 =
          walk (generateChildPublic c) (computeExtendedPublicKey c k) (ss ++ [s])) := by
  have start : (c.pubkeyCreate k.key).isSome = true := by
    cases ss with
    | nil => exact valid.1.1
    | cons t ss => exact valid.1.1
  have published := generateChildPublicOf_eq ((along_append k ss [s]).mp valid).2.1
  have walked : walk (generateChildPrivate c) k (ss ++ [s]) =
      (generateChildPrivate c (walk (generateChildPrivate c) k ss) s.index).2 := walk_append ..
  rw [published, ← walked]
  refine ⟨isPublicPart_compute (valid_walk commutes start valid), fun soft => ?_⟩
  exact ((isPublicPart_compute start).walk commutes valid soft).2.unique.symm

end PublicPart

section Calls

variable (c : Crypto)

/-- A private key as its bytes hold it: the depth is a byte. -/
abbrev StoredKey := {k : ExtendedPrivateKey // k.level < 256}

/-- The bytes that a call returns, if it returns -/
def Returns (call : Except KeyException (List UInt8)) (out : List UInt8) : Prop := call = .ok out

/-- The calls return the same, or neither of them returns. -/
def SameReturns (call call' : Except KeyException (List UInt8)) : Prop :=
  ∀ out, Returns call out ↔ Returns call' out

/-- Neither call returns, if a step is invalid or the depth exceeds its byte. -/
def Refuses (K : StoredKey) (p : PathTerm) (ps : List Step) : Prop :=
  ¬ (K.val.level + ps.length ≤ 255 ∧ ValidSteps c K.val ps) →
    ∀ out, ¬ Returns (childPrivkey c (encodePrivate c K.val) p) out ∧
      ¬ Returns (childPubkey c (encodePrivate c K.val) p) out

def RefusesPublic (pub : ExtendedPublicKey) (p : PathTerm) (ps : List Step) : Prop :=
  ¬ (pub.level + ps.length ≤ 255 ∧ ValidPublicSteps c pub ps) →
    ∀ out, ¬ Returns (childPubkey c (encodePublic c pub) p) out

/-- What derivation along two paths promises of a private key -/
structure Meets (K : StoredKey) (p : PathTerm) (ps : List Step) (q : PathTerm) (qs : List Step) :
    Prop where
  /-- The public key is the public part of the private key. -/
  publicPart : ∀ out, Returns (childPrivkey c (encodePrivate c K.val) p) out →
    ∃ k : StoredKey, ∃ pub, out = encodePrivate c k.val ∧ IsPublicPart c pub k.val ∧
      Returns (childPubkey c (encodePrivate c K.val) p) (encodePublic c pub)
  together : ∀ out, Returns (childPubkey c (encodePrivate c K.val) p) out →
    ∃ out', Returns (childPrivkey c (encodePrivate c K.val) p) out'
  /-- Without a hardened step, it is what the public part of the parent gives. -/
  published : (∀ s ∈ ps, s.isHardened = false) → ∀ pub, IsPublicPart c pub K.val →
    SameReturns (childPubkey c (encodePrivate c K.val) p) (childPubkey c (encodePublic c pub) p)
  /-- Along one path and then the other is along both. -/
  composes : ∀ mid, Returns (childPrivkey c (encodePrivate c K.val) p) mid →
    SameReturns (childPrivkey c mid q) (childPrivkey c (encodePrivate c K.val) (extend p qs)) ∧
      SameReturns (childPubkey c mid q) (childPubkey c (encodePrivate c K.val) (extend p qs))
  composesPublic : (∀ s ∈ qs, s.isHardened = false) →
    ∀ mid, Returns (childPubkey c (encodePrivate c K.val) p) mid →
      SameReturns (childPubkey c mid q) (childPubkey c (encodePrivate c K.val) (extend p qs))
  composesPublished : ∀ pub, IsPublicPart c pub K.val →
    ∀ mid, Returns (childPubkey c (encodePublic c pub) p) mid →
      SameReturns (childPubkey c mid q) (childPubkey c (encodePublic c pub) (extend p qs))
  refuses : Refuses c K p ps ∧ Refuses c K (extend p qs) (ps ++ qs)
  refusesPublic : ∀ pub, IsPublicPart c pub K.val →
    RefusesPublic c pub p ps ∧ RefusesPublic c pub (extend p qs) (ps ++ qs)

/-- The key is valid, the depth stays within a byte, and every step is valid. -/
def Derivable (K : StoredKey) (ss : List Step) : Prop :=
  (c.pubkeyCreate K.val.key).isSome = true ∧ K.val.level + ss.length ≤ 255 ∧
    ValidSteps c K.val ss

end Calls

section Promise

variable {c : Crypto}

theorem soft_or_hard (ss : List Step) :
    (∀ s ∈ ss, s.isHardened = false) ∨ ∃ s ∈ ss, s.isHardened = true := by
  by_cases hard : ∃ s ∈ ss, s.isHardened = true
  · exact Or.inr hard
  · exact Or.inl (by simpa using hard)

theorem sameReturns_of_eq {call call' : Except KeyException (List UInt8)} (same : call = call') :
    SameReturns call call' := fun out => by rw [same]

theorem encodePrivate_injective {k k' : ExtendedPrivateKey} (short : k.level < 256)
    (short' : k'.level < 256) (same : encodePrivate c k = encodePrivate c k') : k = k' := by
  have written : writePrivate k = writePrivate k' := by
    rw [← take_encodePrivate c k, ← take_encodePrivate c k', same]
  exact writePrivate_injective short short' written

variable {K : StoredKey} {p q : PathTerm} {ps qs ss : List Step}

theorem refuses_of_valid (depth : K.val.level + ss.length ≤ 255) (valid : ValidSteps c K.val ss) :
    Refuses c K p ss := fun invalid => absurd ⟨depth, valid⟩ invalid

theorem refusesPublic_of_valid (commutes : c.Commutes) (path : IsPath p ss)
    {pub : ExtendedPublicKey} (part : IsPublicPart c pub K.val)
    (depth : K.val.level + ss.length ≤ 255) (valid : ValidSteps c K.val ss) :
    RefusesPublic c pub p ss := by
  intro invalid out returned
  have short : pub.level < 256 := by
    rw [part.level]
    exact K.property
  rcases soft_or_hard ss with soft | hard
  · refine invalid ⟨?_, (part.walk commutes valid soft).1⟩
    rw [part.level]
    exact depth
  · have refused := childPubkey_hardened c path short hard
    cases returned.symm.trans refused

theorem composes_of_depth (path : IsPath p ps) (path' : IsPath q qs)
    (depth : K.val.level + ps.length ≤ 255) {mid : List UInt8}
    (returned : Returns (childPrivkey c (encodePrivate c K.val) p) mid) :
    SameReturns (childPrivkey c mid q) (childPrivkey c (encodePrivate c K.val) (extend p qs)) ∧
      SameReturns (childPubkey c mid q) (childPubkey c (encodePrivate c K.val) (extend p qs)) := by
  have reached := childPrivkey_walk c path K.property
  have short := walkPrivate_short (c := c) depth
  obtain rfl := Except.ok.inj (returned.symm.trans reached)
  constructor
  · apply sameReturns_of_eq
    rw [childPrivkey_walk c path' short, childPrivkey_walk c (path.extend qs) K.property,
      walk_append]
  · apply sameReturns_of_eq
    rw [childPubkey_walk c path' short, childPubkey_walk c (path.extend qs) K.property,
      walk_append]

theorem composesPublic_of_valid (commutes : c.Commutes) (path : IsPath p ps) (path' : IsPath q qs)
    (derivable : Derivable c K (ps ++ qs)) (soft : ∀ s ∈ qs, s.isHardened = false)
    {mid : List UInt8} (returned : Returns (childPubkey c (encodePrivate c K.val) p) mid) :
    SameReturns (childPubkey c mid q) (childPubkey c (encodePrivate c K.val) (extend p qs)) := by
  obtain ⟨start, depth, valid⟩ := derivable
  obtain ⟨before, after⟩ := (along_append K.val ps qs).mp valid
  rw [List.length_append] at depth
  have reached := childPubkey_walk c path K.property
  have depth' : K.val.level + ps.length ≤ 255 := by omega
  have short := walkPrivate_short (c := c) depth'
  have part := isPublicPart_compute (valid_walk commutes start before)
  have final := (part.walk commutes after soft).2.unique
  obtain rfl := Except.ok.inj (returned.symm.trans reached)
  apply sameReturns_of_eq
  rw [childPubkey_walkPublic c path' short soft, childPubkey_walk c (path.extend qs) K.property,
    walk_append, final]

theorem composesPublished_of_depth (path : IsPath p ps) (path' : IsPath q qs)
    {pub : ExtendedPublicKey} (depth : pub.level + ps.length ≤ 255) {mid : List UInt8}
    (returned : Returns (childPubkey c (encodePublic c pub) p) mid) :
    SameReturns (childPubkey c mid q) (childPubkey c (encodePublic c pub) (extend p qs)) := by
  have short : pub.level < 256 := by omega
  rcases soft_or_hard ps with soft | hard
  · have reached := childPubkey_walkPublic c path short soft
    have midShort := walkPublic_short (c := c) depth
    obtain rfl := Except.ok.inj (returned.symm.trans reached)
    apply sameReturns_of_eq
    rcases soft_or_hard qs with soft' | hard
    · have both : ∀ s ∈ ps ++ qs, s.isHardened = false := fun s member =>
        (List.mem_append.mp member).elim (soft s) (soft' s)
      rw [childPubkey_walkPublic c path' midShort soft',
        childPubkey_walkPublic c (path.extend qs) short both, walk_append]
    · have some : ∃ s ∈ ps ++ qs, s.isHardened = true :=
        hard.imp fun s at_s => ⟨List.mem_append_right ps at_s.1, at_s.2⟩
      rw [childPubkey_hardened c path' midShort hard,
        childPubkey_hardened c (path.extend qs) short some]
  · cases returned.symm.trans (childPubkey_hardened c path short hard)

theorem valid_of_meets (path : IsPath p ps) (promise : Meets c K p ps q qs)
    (valid : ValidSteps c K.val ps) :
    (c.pubkeyCreate K.val.key).isSome = true := by
  cases ps with
  | nil =>
    obtain ⟨k, pub, same, part, -⟩ :=
      promise.publicPart _ (childPrivkey_walk c path K.property)
    have stays : K.val = k.val := encodePrivate_injective K.property k.property same
    rw [stays, part.key]
    rfl
  | cons s ps => exact valid.1.1

theorem derivable_of_meets (path : IsPath p ps) (promise : Meets c K p ps q qs) :
    Derivable c K (ps ++ qs) := by
  have whole : K.val.level + (ps ++ qs).length ≤ 255 ∧ ValidSteps c K.val (ps ++ qs) := by
    refine Classical.byContradiction fun invalid => ?_
    exact (promise.refuses.2 invalid _).1 (childPrivkey_walk c (path.extend qs) K.property)
  obtain ⟨depth, valid⟩ := whole
  have before := ((along_append K.val ps qs).mp valid).1
  exact ⟨valid_of_meets path promise before, depth, valid⟩

/-- The calls keep the promise exactly where every step is valid and no depth is cut. -/
theorem derives_iff (commutes : c.Commutes) (path : IsPath p ps) (path' : IsPath q qs) :
    Meets c K p ps q qs ↔ Derivable c K (ps ++ qs) := by
  constructor
  · exact derivable_of_meets path
  · intro derivable
    obtain ⟨start, depth, valid⟩ := derivable
    obtain ⟨before, -⟩ := (along_append K.val ps qs).mp valid
    have depth' : K.val.level + ps.length ≤ 255 := by
      rw [List.length_append] at depth
      omega
    have reached := childPrivkey_walk c path K.property
    have published := childPubkey_walk c path K.property
    constructor
    case publicPart =>
      intro out returned
      obtain rfl := Except.ok.inj (returned.symm.trans reached)
      exact ⟨⟨_, walkPrivate_short depth'⟩, _, rfl,
        isPublicPart_compute (valid_walk commutes start before), published⟩
    case together => exact fun out _ => ⟨_, reached⟩
    case published =>
      intro soft pub part
      have short : pub.level < 256 := by
        rw [part.level]
        exact K.property
      apply sameReturns_of_eq
      rw [published, childPubkey_walkPublic c path short soft,
        (part.walk commutes before soft).2.unique]
    case composes => exact fun mid returned => composes_of_depth path path' depth' returned
    case composesPublic =>
      exact fun soft mid returned =>
        composesPublic_of_valid commutes path path' ⟨start, depth, valid⟩ soft returned
    case composesPublished =>
      intro pub part mid returned
      exact composesPublished_of_depth path path' (by rw [part.level]; exact depth') returned
    case refuses => exact ⟨refuses_of_valid depth' before, refuses_of_valid depth valid⟩
    case refusesPublic =>
      exact fun pub part => ⟨refusesPublic_of_valid commutes path part depth' before,
        refusesPublic_of_valid commutes (path.extend qs) part depth valid⟩

end Promise

section Vector

/-- Bytes from a number, the first one highest -/
def bytes (size n : ℕ) : Bytes size :=
  ⟨(List.range size).map fun i => UInt8.ofNat (n / 256 ^ (size - 1 - i)), by
    rw [List.length_map, List.length_range]⟩

/-- The master key of the seed 000102…0f, its hardened child 0 and the child 1 of this -/
def key0 : Bytes 32 := bytes 32 0xe8f32e723decf4051aefac8e2c93c9c5b214313817cdb01a1494b917c8436b35

def key1 : Bytes 32 := bytes 32 0xedb2e14f9ee77d26dd93b4ecede8d16ed408ce149b6cd80b0715a2d911a0afea

def key2 : Bytes 32 := bytes 32 0x3c6cb8d0f6a264c91ea8b5030fadaa8e538b020f0a387421a12de9319dc93368

def pub0 : Bytes 33 := bytes 33 0x0339a36013301597daef41fbe593a02cc513d0b55527ec2df1050e2e8ff49c85c2

def pub1 : Bytes 33 := bytes 33 0x035a784662a4a20a65bf6aab9ae98a6c068a81c52e4b032c0fb5400c706cfccc56

def pub2 : Bytes 33 := bytes 33 0x03501e454bf00751f24b1b489aa925215d66af2234e3891c3b21a52bedb3cd711c

def chainCode0 : Bytes 32 :=
  bytes 32 0x873dff81c02f525623fd1fe5167eac3a55a049de3d314bb42ee227ffed37d508

def chainCode1 : Bytes 32 :=
  bytes 32 0x47fdacbd0f1097043b78c63c20c34ef4ed9a111d980047ad16282c7ae6236141

def chainCode2 : Bytes 32 :=
  bytes 32 0x2a7857631386ba23dacac34180dd1983734e444fdbf774041578e9b6adb37c19

def tweak0 : Bytes 32 := bytes 32 0x04bfb2dd60fa8921c2a4085ec15507a921f49cdc839f27f0f280e9c1495d44b5

def tweak1 : Bytes 32 := bytes 32 0x4eb9d78157bae7a24115001621c4d91e3a3110e11e143c5259eaa4e55c5ec4bf

def fingerprint0 : Bytes 4 := bytes 4 0x3442193e

def fingerprint1 : Bytes 4 := bytes 4 0x5c1bd648

def master : ExtendedPrivateKey where
  key := key0
  level := 0
  fingerprint := Bytes.zero 4
  childNumber := 0
  chainCode := chainCode0

def masterChild : ExtendedPrivateKey where
  key := key1
  level := 1
  fingerprint := fingerprint0
  childNumber := H 0
  chainCode := chainCode1

def masterGrandchild : ExtendedPrivateKey where
  key := key2
  level := 2
  fingerprint := fingerprint1
  childNumber := 1
  chainCode := chainCode2

/-- The key at the last depth that a byte holds -/
def deepest : ExtendedPrivateKey := { master with level := 255 }

def publicOf (k : ExtendedPrivateKey) (pub : Bytes 33) : ExtendedPublicKey where
  key := pub
  level := k.level
  fingerprint := k.fingerprint
  childNumber := k.childNumber
  chainCode := k.chainCode

def checksums : List (List UInt8 × Bytes 4) :=
  [(writePrivate master, bytes 4 0xe77e9d71),
    (writePublic (publicOf master pub0), bytes 4 0xab473b21),
    (writePrivate masterChild, bytes 4 0x0a794dec),
    (writePublic (publicOf masterChild pub1), bytes 4 0xb8b9c580),
    (writePrivate masterGrandchild, bytes 4 0xb34bc442),
    (writePublic (publicOf masterGrandchild pub2), bytes 4 0x6f6e2af7),
    (writePrivate deepest, bytes 4 0xa903375a),
    (writePrivate { masterChild with level := 0 }, bytes 4 0x544161c7)]

/-- The operations and the hashes, on these keys -/
def vector : Crypto where
  pubkeyCreate key := [(key0, pub0), (key1, pub1), (key2, pub2)].lookup key
  privkeyTweakAdd il key :=
    if il = tweak0 ∧ key = key0 then some key1
    else if il = tweak1 ∧ key = key1 then some key2
    else none
  pubkeyTweakAdd pub il :=
    if il = tweak0 ∧ pub = pub0 then some pub1
    else if il = tweak1 ∧ pub = pub1 then some pub2
    else none
  hmacSha512 chainCode data :=
    if chainCode = chainCode0 ∧ data = 0 :: key0.val ++ be32 (H 0) then
      ⟨tweak0.val ++ chainCode1.val, by
        rw [List.length_append, tweak0.property, chainCode1.property]⟩
    else if chainCode = chainCode1 ∧ data = pub1.val ++ be32 1 then
      ⟨tweak1.val ++ chainCode2.val, by
        rw [List.length_append, tweak1.property, chainCode2.property]⟩
    else Bytes.zero 64
  computeFingerprint pub :=
    if pub = pub0 then fingerprint0 else if pub = pub1 then fingerprint1 else Bytes.zero 4
  checksum data := (checksums.lookup data).getD (Bytes.zero 4)

theorem vector_commutes : vector.Commutes := by
  constructor
  · intro il key child added
    unfold vector at added
    dsimp only at added
    split at added
    · obtain rfl := Option.some.inj added
      decide
    · split at added
      · obtain rfl := Option.some.inj added
        decide
      · cases added
  · intro il key pub child created added
    unfold vector at added
    dsimp only at added
    split at added
    · rename_i first
      obtain ⟨rfl, rfl⟩ := first
      obtain rfl := Option.some.inj added
      have same : vector.pubkeyCreate key0 = some pub0 := by decide
      obtain rfl := Option.some.inj (same.symm.trans created)
      decide
    · split at added
      · rename_i second
        obtain ⟨rfl, rfl⟩ := second
        obtain rfl := Option.some.inj added
        have same : vector.pubkeyCreate key1 = some pub1 := by decide
        obtain rfl := Option.some.inj (same.symm.trans created)
        decide
      · cases added

theorem meets_vector : Meets vector ⟨master, by decide⟩ (.slash .m (.h (.int 0))) [.hardened 0]
    (.int 1) [.child 1] :=
  (derives_iff vector_commutes (IsPath.root.slash (.hardened 0)) (.first (.child 1))).mpr
    ⟨by decide, by decide, ⟨by decide, by decide⟩,
      ⟨by decide, by decide⟩, trivial⟩

theorem publish_last_vector : IsPublicPart vector
      (generateChildPublicOf vector (walk (generateChildPrivate vector) master [.hardened 0]) 1).2
      (walk (generateChildPrivate vector) master [.hardened 0, .child 1]) ∧
    ((∀ t ∈ [Step.hardened 0, .child 1], t.isHardened = false) →
      (generateChildPublicOf vector (walk (generateChildPrivate vector) master [.hardened 0]) 1).2 =
        walk (generateChildPublic vector) (computeExtendedPublicKey vector master)
          [.hardened 0, .child 1]) :=
  @publish_last vector vector_commutes master [.hardened 0] (.child 1)
    ⟨⟨by decide, by decide⟩, ⟨by decide, by decide⟩, trivial⟩

/-- From the last depth, the depth of a child starts again at 0. -/
theorem depth_wraps : ¬ ∀ c : Crypto, c.Commutes → ∀ (K : StoredKey) (p : PathTerm)
    (ps : List Step) (q : PathTerm) (qs : List Step), IsPath p ps → IsPath q qs →
      Meets c K p ps q qs := by
  intro kept
  have promise := kept vector vector_commutes ⟨deepest, by decide⟩ (.slash .m (.h (.int 0)))
    [.hardened 0] .m [] (IsPath.root.slash (.hardened 0)) .root
  have depth := (derivable_of_meets (IsPath.root.slash (.hardened 0)) promise).2.1
  revert depth
  decide

end Vector

end Epilog.Ec.KeyPublication
