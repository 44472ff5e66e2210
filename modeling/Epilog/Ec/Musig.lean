/- Module: Epilog/Ec/Musig
   source: src/src/ec/builtins.cpp (musig_session, musig_env, musig_start to musig_end)
   digest: The sessions of multi-signatures, and when a secret nonce is used for one challenge. -/

import Epilog.Ec.Arguments
import Epilog.Lib.StepRuns
import Mathlib.Logic.Function.Basic

set_option autoImplicit false

namespace Epilog.Ec.Musig

open Epilog.Ec.Arguments Epilog.Ec.KeyDerivation Epilog.Lib.StepRuns

section Library

/-- The functions of the external library, with `none` for a result that is not 1 -/
structure Library where
  /-- `secp256k1_musig_session` -/
  Session : Type
  /-- `secp256k1_musig_session_signer_data` -/
  Signer : Type
  Pubkey : Type
  Partial : Type
  Schnorr : Type
  pubkeyParse : Bytes 33 → Option Pubkey
  pubkeySerialize : Pubkey → Option (Bytes 33)
  /-- From the id, the hash of the data, the combined key and its hash, the number of signers, the
  own index and the private key: the session, the signers and the commitment to the nonce -/
  sessionInitialize : Bytes 32 → Bytes 32 → Pubkey → Bytes 32 → ℕ → UInt64 → Bytes 32 →
    Option (Session × List Signer × Bytes 32)
  /-- The last argument is the message, which may be left out. -/
  getPublicNonce : Session → List Signer → List (Bytes 32) → Option (Bytes 32) →
    Option (Pubkey × Session × List Signer)
  setNonce : Signer → Pubkey → Option Signer
  combineNonces : Session → List Signer → Option Pubkey → Option (Session × Bool)
  partialSign : Session → Option Partial
  partialSerialize : Partial → Option (Bytes 32)
  partialParse : Bytes 32 → Option Partial
  partialSigAdapt : Partial → Bytes 32 → Bool → Option Partial
  partialSigCombine : Session → List Partial → Option (Bytes 32) → Option Schnorr
  schnorrSerialize : Schnorr → Option (Bytes 64)

/-- What the library documents of its sessions: the secret nonce and the message are fixed when a
session is made, and a partial signature is for the combination that was stored last. -/
structure Reading (lib : Library) where
  Secret : Type
  Combination : Type
  secret : lib.Session → Secret
  message : lib.Session → Bytes 32
  combination : lib.Session → Option Combination
  combined : lib.Session → List lib.Signer → Option lib.Pubkey → Combination
  sign : Secret → Combination → Bytes 32 → Option lib.Partial
  sessionInitialize_eq : ∀ id data key hash n index privkey session signers commitment,
    lib.sessionInitialize id data key hash n index privkey = some (session, signers, commitment) →
      message session = data ∧ combination session = none
  getPublicNonce_eq : ∀ session signers commitments nonce session' signers',
    lib.getPublicNonce session signers commitments none = some (nonce, session', signers') →
      secret session' = secret session ∧ message session' = message session ∧
        combination session' = combination session
  combineNonces_eq : ∀ session signers adaptor session' negated,
    lib.combineNonces session signers adaptor = some (session', negated) →
      secret session' = secret session ∧ message session' = message session ∧
        combination session' = some (combined session signers adaptor)
  partialSign_eq : ∀ session, lib.partialSign session =
    (combination session).bind fun c => sign (secret session) c (message session)

end Library

section Model

inductive Kind
  | wrongArgType | notList | notPublicKey | musig
  deriving DecidableEq

/-- An exception of the interpreter -/
structure Thrown where
  kind : Kind
  message : String
  deriving DecidableEq

inductive Outcome
  | succeeds
  | fails
  | throws (exception : Thrown)
  /-- A failed assertion, which ends the process -/
  | aborts
  deriving DecidableEq

/-- What surrounds the builtins: the library, whether assertions are compiled, the texts of terms,
the double hash of a term and the checksum of a key -/
structure Machine where
  lib : Library
  asserts : Bool
  text : Arg → String
  hashed2 : Arg → Option (Bytes 32)
  checksum : List UInt8 → Bytes 4

variable (m : Machine)

/-- `musig_session` -/
structure Session where
  id : UInt64
  numSigners : ℕ
  myIndex : UInt64
  internal : m.lib.Session
  signers : List m.lib.Signer
  nonceCommitment : Bytes 32
  nonceIsNegated : Bool
  pubkeys : ℕ → Option m.lib.Pubkey

/-- A partial signature that a caller got, with the session as it signed -/
structure Given where
  pointer : ℕ
  internal : m.lib.Session
  signature : Bytes 32

/-- `musig_env`, with the sessions it points to, by the order in which they were made; the count of
these and the list of the signatures, the newest first, are of no use to the code. -/
structure Env where
  sessionCount : UInt64
  session : UInt64 → Option ℕ
  sessions : ℕ → Option (Session m)
  made : ℕ
  given : List (Given m)
  aborted : Bool

def Env.empty : Env m := ⟨0, fun _ => none, fun _ => none, 0, [], false⟩

variable {m}

def Env.put (env : Env m) (pointer : ℕ) (session : Session m) : Env m :=
  { env with sessions := Function.update env.sessions pointer (some session) }

def Env.getMusigSession (env : Env m) : Arg → Option (ℕ × Session m)
  | .str "$musig" [.int id] => (env.session (UInt64.ofInt id)).bind fun pointer =>
    (env.sessions pointer).map fun session => (pointer, session)
  | _ => none

/-- The start of every builtin on a session -/
def Env.withSession (env : Env m) (call : String) (arg : Arg)
    (rest : ℕ → Session m → Env m × Outcome) : Env m × Outcome :=
  match env.getMusigSession arg with
  | none => (env, .throws ⟨.wrongArgType,
      call ++ ": First argument must be MuSig session; was " ++ m.text arg⟩)
  | some (pointer, session) => rest pointer session

/-- A list whose elements are read one after the other -/
def readList {β : Type} (read : ℕ → Arg → Except Outcome β) : ℕ → List Arg → Except Outcome (List β)
  | _, [] => .ok []
  | i, a :: l =>
    match read i a with
    | .error e => .error e
    | .ok b => (readList read (i + 1) l).map (b :: ·)

def outcomeOf (unified : Bool) : Outcome := if unified then .succeeds else .fails

variable (m)

/-- What `musig_start` finds: the random id of the session, and what its memory held before -/
structure Fresh where
  sessionId : Bytes 32
  nonceIsNegated : Bool

/-- The arguments of `musig_start` that are checked before there is a session -/
def readStart (session pubkey hash myIndex numSigners privkey data : Arg) :
    Except Outcome (m.lib.Pubkey × Bytes 32 × UInt64 × ℕ × Bytes 32 × Bytes 32) :=
  let wrong := fun (message : String) (a : Arg) => Except.error (Outcome.throws
    ⟨.wrongArgType, "musig_start/7: " ++ message ++ "; was " ++ m.text a⟩)
  match session with
  | .ref =>
    match getPublicKey pubkey with
    | none => wrong "Second argument must be a public key" pubkey
    | some raw =>
      match m.lib.pubkeyParse raw with
      | none => wrong "Second argument must be a valid public key" pubkey
      | some combined =>
        match getBignum 32 hash with
        | none => wrong "Third argument must be a hash (of all public keys)" hash
        | some pubhash =>
          match myIndex with
          | .int index =>
            match numSigners with
            | .int n =>
              if n ≤ 0 ∨ 1024 < n then
                wrong "Number of signers must be 1..1024" numSigners
              else
                match getPrivateKey m.checksum privkey with
                | none => wrong "Sixth argument must be a private key for signing" privkey
                | some key =>
                  match m.hashed2 data with
                  | none => .error .fails
                  | some datahash =>
                    .ok (combined, pubhash, UInt64.ofInt index, n.toNat, key, datahash)
            | _ => wrong "Fifth argument must be an integer denoting number of signers" numSigners
          | _ => wrong ("Fourth argument must be an integer index " ++
              "(my index position of public keys)") myIndex
  | _ => wrong "First argument must be an unbound variable" session

/-- `musig_start`, whose session is deleted again if it is not initialized -/
def musigStart (env : Env m) (fresh : Fresh)
    (session pubkey hash myIndex numSigners privkey data : Arg) : Env m × Outcome :=
  match readStart m session pubkey hash myIndex numSigners privkey data with
  | .error outcome => (env, outcome)
  | .ok (combined, pubhash, index, n, key, datahash) =>
    let id := env.sessionCount + 1
    match m.lib.sessionInitialize fresh.sessionId datahash combined pubhash n index key with
    | none => ({ env with
        sessionCount := id, made := env.made + 1
        session := Function.update env.session id none }, .fails)
    | some (internal, signers, commitment) =>
      ({ env with
        sessionCount := id, made := env.made + 1
        session := Function.update env.session id (some env.made)
        sessions := Function.update env.sessions env.made (some
          ⟨id, n, index, internal, signers, commitment, fresh.nonceIsNegated, fun _ => none⟩) },
        .succeeds)

def musigSetPublicKey (env : Env m) (session index pubkey : Arg) : Env m × Outcome :=
  let call := "musig_set_public_key/3"
  env.withSession call session fun pointer s =>
    match index with
    | .int i =>
      if i < 0 ∨ s.numSigners ≤ i.toNat then
        (env, .throws ⟨.wrongArgType, call ++ ": Index is out of range; was " ++ m.text index⟩)
      else
        match (getPublicKey pubkey).bind m.lib.pubkeyParse with
        | none => (env, .throws ⟨.notList,
            call ++ ": Third argument is not a public key; was" ++ m.text pubkey⟩)
        | some key => (env.put pointer
            { s with pubkeys := Function.update s.pubkeys i.toNat (some key) }, .succeeds)
    | _ => (env, .throws ⟨.wrongArgType,
        call ++ ": Second argument must be an index; was " ++ m.text index⟩)

def musigNonceCommit (env : Env m) (session commitment : Arg) : Env m × Outcome :=
  env.withSession "musig_nonce_commit/2" session fun _ s =>
    (env, outcomeOf (unifyBig s.nonceCommitment commitment))

/-- `musig_prepare`, which gives the library no message -/
def musigPrepare (env : Env m) (session commitments nonce : Arg) : Env m × Outcome :=
  let call := "musig_prepare/3"
  env.withSession call session fun pointer s =>
    match commitments with
    | .list l =>
      if l.length ≠ s.numSigners then
        (env, .throws ⟨.notList, call ++
          ": Number of nonce commitments does not match number of signers. " ++
          "Number of signers is " ++ toString s.numSigners ++ " and number of commitments is " ++
          toString l.length ++ "."⟩)
      else
        match readList (fun i a => match getBignum 32 a with
            | some hash => .ok hash
            | none => .error (.throws ⟨.notList, call ++
                ": Second argument is not a list of nonce commitments; element " ++
                toString (i + 1) ++ " was " ++ m.text a⟩)) 0 l with
        | .error outcome => (env, outcome)
        | .ok hashes =>
          match m.lib.getPublicNonce s.internal s.signers hashes none with
          | none => (env, .throws ⟨.wrongArgType, call ++
              ": Couldn't get public nonce. MuSig session could be in an invalid state."⟩)
          | some (point, internal, signers) =>
            let env := env.put pointer { s with internal := internal, signers := signers }
            match m.lib.pubkeySerialize point with
            | none => (env, .throws ⟨.musig, call ++
                ": Couldn't get public nonce. MuSig session could be in an invalid state."⟩)
            | some raw => (env, outcomeOf (unifyBig raw nonce))
    | _ => (env, .throws ⟨.notList, call ++
        ": Second argument is not a list of nonce commitments; was " ++ m.text commitments⟩)

/-- `musig_session::set_nonce`, whose call of the library stands in an assertion -/
def setNonce (s : Session m) (i : ℕ) (nonce : m.lib.Pubkey) : Option (Session m) :=
  if m.asserts then
    (s.signers[i]?.bind fun signer => m.lib.setNonce signer nonce).map fun signer =>
      { s with signers := s.signers.set i signer }
  else some s

/-- The loop over the nonces, which stops at the first that cannot be read -/
def setNonces (call : String) : ℕ → List Arg → Session m → Session m × Option Outcome
  | _, [], s => (s, none)
  | i, a :: l, s =>
    match getPublicKey a with
    | none => (s, some (.throws ⟨.notList, call ++
        ": Second argument is not a list of nonces; element " ++ toString (i + 1) ++ " was " ++
        m.text a⟩))
    | some raw =>
      match m.lib.pubkeyParse raw with
      | none => (s, some (.throws ⟨.wrongArgType, call ++ ": Nonce is not a public key; was " ++
          m.text a⟩))
      | some nonce =>
        match setNonce m s i nonce with
        | none => (s, some .aborts)
        | some s => setNonces call (i + 1) l s

def readAdaptor (call : String) : Option Arg → Except Outcome (Option m.lib.Pubkey)
  | none => .ok none
  | some a =>
    match getPublicKey a with
    | none => .error (.throws ⟨.notList, call ++
        ": Third argument is not a public key (adaptor); was" ++ m.text a⟩)
    | some raw =>
      match m.lib.pubkeyParse raw with
      | none => .error (.throws ⟨.wrongArgType, call ++
          ": Third argument is not a public key (adaptor); was " ++ m.text a⟩)
      | some adaptor => .ok (some adaptor)

def noncesCall (adaptor : Option Arg) : String :=
  "musig_nonces/" ++ toString (if adaptor.isSome then 3 else 2)

/-- `musig_nonces`, with an adaptor or without -/
def musigNonces (env : Env m) (session nonces : Arg) (adaptor : Option Arg) : Env m × Outcome :=
  let call := noncesCall adaptor
  env.withSession call session fun pointer s =>
    match nonces with
    | .list l =>
      if l.length ≠ s.numSigners then
        (env, .throws ⟨.musig, call ++ ": Number of nonces does not match number of signers. " ++
          "Number of signers is " ++ toString s.numSigners ++ " and number of nonces is " ++
          toString l.length ++ "."⟩)
      else
        match setNonces m call 0 l s with
        | (s, some outcome) => (env.put pointer s, outcome)
        | (s, none) =>
          match readAdaptor m call adaptor with
          | .error outcome => (env.put pointer s, outcome)
          | .ok adaptorUsed =>
            match m.lib.combineNonces s.internal s.signers adaptorUsed with
            | none => (env.put pointer s, .throws ⟨.musig, call ++
                ": Couldn't combine nonces. MuSig session was probably invalid."⟩)
            | some (internal, negated) =>
              (env.put pointer { s with internal := internal, nonceIsNegated := negated },
                .succeeds)
    | _ => (env, .throws ⟨.wrongArgType, call ++
        ": Second argument is not a list of nonces; was " ++ m.text nonces⟩)

def musigPartialSign (env : Env m) (session signature : Arg) : Env m × Outcome :=
  let call := "musig_partial_sign/2"
  env.withSession call session fun pointer s =>
    match m.lib.partialSign s.internal with
    | none => (env, .throws ⟨.musig, call ++ ": Couldn't compute partial signature."⟩)
    | some sig =>
      match m.lib.partialSerialize sig with
      | none => (env, .throws ⟨.musig, call ++ ": Couldn't serialize partial signature."⟩)
      | some raw =>
        if unifyBig raw signature then
          ({ env with given := ⟨pointer, s.internal, raw⟩ :: env.given }, .succeeds)
        else (env, .fails)

def musigPartialSignAdapt (env : Env m) (session signature secret adapted : Arg) :
    Env m × Outcome :=
  let call := "musig_partial_sign_adapt/4"
  env.withSession call session fun _ s =>
    match getBignum 32 signature with
    | none => (env, .throws ⟨.notList, call ++
        ": Second argument is not a partial signature; was " ++ m.text signature⟩)
    | some raw =>
      match m.lib.partialParse raw with
      | none => (env, .throws ⟨.wrongArgType, call ++
          ": Partial signature could not be parsed: " ++ m.text signature⟩)
      | some sig =>
        match getPrivateKey m.checksum secret with
        | none => (env, .throws ⟨.wrongArgType, call ++
            ": Third argument must be a private key (adaptor secret); was " ++ m.text secret⟩)
        | some key =>
          match m.lib.partialSigAdapt sig key s.nonceIsNegated with
          | none => (env, .throws ⟨.musig, call ++ ": Couldn't adapt signature."⟩)
          | some sig =>
            match m.lib.partialSerialize sig with
            | none => (env, .throws ⟨.musig, call ++ ": Couldn't serialize adapted signature."⟩)
            | some raw => (env, outcomeOf (unifyBig raw adapted))

/-- The tweak of `musig_final_sign`, which may be missing or the empty list -/
def readTweak (call : String) : Option Arg → Except Outcome (Option (Bytes 32))
  | none => .ok none
  | some (.list []) => .ok none
  | some a =>
    match getPrivateKey m.checksum a with
    | none => .error (.throws ⟨.wrongArgType, call ++
        ": Couldn't parse private key (or secret) in third argument."⟩)
    | some tweak => .ok (some tweak)

/-- `musig_final_sign`, with a tweak or without -/
def musigFinalSign (env : Env m) (session signatures : Arg) (tweak : Option Arg)
    (signature : Arg) : Env m × Outcome :=
  let call := "musig_final_sign/" ++ toString (if tweak.isSome then 4 else 3)
  env.withSession call session fun _ s =>
    match signatures with
    | .list l =>
      if l.length ≠ s.numSigners then
        (env, .throws ⟨.musig, call ++
          ": Number of signatures does not match number of signers. " ++
          "Number of signers is " ++ toString s.numSigners ++ " and number of signatures is " ++
          toString l.length ++ "."⟩)
      else
        match readList (fun i a => match getBignum 32 a with
            | none => .error (.throws ⟨.notList, call ++
                ": Second argument is not a list of partial signatures; element " ++
                toString (i + 1) ++ " was " ++ m.text a⟩)
            | some raw => match m.lib.partialParse raw with
              | none => .error (.throws ⟨.wrongArgType, call ++
                  ": Partial signature could not be parsed: " ++ m.text a⟩)
              | some sig => .ok sig) 0 l with
        | .error outcome => (env, outcome)
        | .ok sigs =>
          match readTweak m call tweak with
          | .error outcome => (env, outcome)
          | .ok tweakUsed =>
            match m.lib.partialSigCombine s.internal sigs tweakUsed with
            | none => (env, .throws ⟨.musig, call ++
                ": Couldn't combine signatures. MuSig session was probably invalid."⟩)
            | some final =>
              match m.lib.schnorrSerialize final with
              | none => (env, .throws ⟨.musig, call ++
                  ": Couldn't serialize final signature. MuSig session was probably invalid."⟩)
              | some raw => (env, outcomeOf (unifyBig raw signature))
    | _ => (env, .throws ⟨.wrongArgType, call ++
        ": Second argument is not a list of partial signatures; was " ++ m.text signatures⟩)

/-- `musig_nonce_negated`, with the atom that the second argument is, if it is one -/
def musigNonceNegated (env : Env m) (session negated : Arg) : Env m × Outcome :=
  env.withSession "musig_nonce_negated/2" session fun _ s =>
    match negated with
    | .ref => (env, .succeeds)
    | .other text => (env, outcomeOf (text = if s.nonceIsNegated then "true" else "false"))
    | _ => (env, .fails)

/-- `musig_end`, whose exception names another builtin -/
def musigEnd (env : Env m) (session : Arg) : Env m × Outcome :=
  env.withSession "musig_nonce_negated/2" session fun pointer s =>
    ({ env with
      session := Function.update env.session s.id none
      sessions := Function.update env.sessions pointer none }, .succeeds)

inductive Call
  | start (fresh : Fresh) (session pubkey hash myIndex numSigners privkey data : Arg)
  | setPublicKey (session index pubkey : Arg)
  | nonceCommit (session commitment : Arg)
  | prepare (session commitments nonce : Arg)
  | nonces (session nonces : Arg) (adaptor : Option Arg)
  | partialSign (session signature : Arg)
  | partialSignAdapt (session signature secret adapted : Arg)
  | finalSign (session signatures : Arg) (tweak : Option Arg) (signature : Arg)
  | nonceNegated (session negated : Arg)
  | stop (session : Arg)

def run (env : Env m) : Call → Env m × Outcome
  | .start fresh session pubkey hash myIndex numSigners privkey data =>
    musigStart m env fresh session pubkey hash myIndex numSigners privkey data
  | .setPublicKey session index pubkey => musigSetPublicKey m env session index pubkey
  | .nonceCommit session commitment => musigNonceCommit m env session commitment
  | .prepare session commitments nonce => musigPrepare m env session commitments nonce
  | .nonces session nonces adaptor => musigNonces m env session nonces adaptor
  | .partialSign session signature => musigPartialSign m env session signature
  | .partialSignAdapt session signature secret adapted =>
    musigPartialSignAdapt m env session signature secret adapted
  | .finalSign session signatures tweak signature =>
    musigFinalSign m env session signatures tweak signature
  | .nonceNegated session negated => musigNonceNegated m env session negated
  | .stop session => musigEnd m env session

/-- One call, which may end the process. Backtracking leaves the environment as it is. -/
def step (env : Env m) (call : Call) : Env m :=
  if env.aborted then env
  else
    let (env, outcome) := run m env call
    { env with aborted := decide (outcome = .aborts) }

end Model
section Challenges

variable {m : Machine} (r : Reading m.lib)

/-- What a session signs with and for: its secret nonce, its message and the combined nonce -/
def Reading.challenge (session : m.lib.Session) : r.Secret × Bytes 32 × Option r.Combination :=
  (r.secret session, r.message session, r.combination session)

/-- The signature is the one for the challenge of its session. -/
def Genuine (g : Given m) : Prop :=
  ∃ c sig, r.combination g.internal = some c ∧
    r.sign (r.secret g.internal) c (r.message g.internal) = some sig ∧
    m.lib.partialSerialize sig = some g.signature

/-- All partial signatures of a session are for one challenge. -/
def OneChallenge (env : Env m) : Prop :=
  (∀ g ∈ env.given, Genuine r g) ∧ ∀ g ∈ env.given, ∀ g' ∈ env.given, g.pointer = g'.pointer →
    r.challenge g.internal = r.challenge g'.internal

/-- A call of `musig_nonces` that comes to the storing of a combination -/
structure Stores (env : Env m) (session nonces : Arg) (adaptor : Option Arg) (pointer : ℕ)
    (s s' : Session m) (adaptorUsed : Option m.lib.Pubkey) (l : List Arg) : Prop where
  found : env.getMusigSession session = some (pointer, s)
  list : nonces = .list l
  length : l.length = s.numSigners
  set : setNonces m (noncesCall adaptor) 0 l s = (s', none)
  read : readAdaptor m (noncesCall adaptor) adaptor = .ok adaptorUsed
  combines : (m.lib.combineNonces s'.internal s'.signers adaptorUsed).isSome

/-- On a session that has given a partial signature, the nonces and the adaptor combine to what the
session holds. -/
def Recombines (env : Env m) : Call → Prop
  | .nonces session nonces adaptor => ∀ pointer s s' adaptorUsed l,
    Stores env session nonces adaptor pointer s s' adaptorUsed l →
      (∃ g ∈ env.given, g.pointer = pointer) →
        r.combination s.internal = some (r.combined s'.internal s'.signers adaptorUsed)
  | _ => True

/-- The sessions of signatures exist or have ended, and hold the challenge that they signed. -/
structure Sound (env : Env m) : Prop where
  below : ∀ p s, env.sessions p = some s → p < env.made
  givenBelow : ∀ g ∈ env.given, g.pointer < env.made
  held : ∀ g ∈ env.given, ∀ s, env.sessions g.pointer = some s →
    r.challenge s.internal = r.challenge g.internal
  one : OneChallenge r env

theorem Sound.empty : Sound r (Env.empty m) where
  below := by intro p s found; cases found
  givenBelow := by intro g listed; cases listed
  held := by intro g listed; cases listed
  one := by constructor <;> intro g listed <;> cases listed

variable {r} {env : Env m}

theorem Sound.update (sound : Sound r env) (count : UInt64) (ids : UInt64 → Option ℕ) {made : ℕ}
    (more : env.made ≤ made) {p : ℕ} {s : Option (Session m)} (below : p < made)
    (same : ∀ g ∈ env.given, g.pointer = p → ∀ t, s = some t →
      r.challenge t.internal = r.challenge g.internal) :
    Sound r { env with
      sessionCount := count, session := ids, made := made
      sessions := Function.update env.sessions p s } where
  below := by
    intro q t stored
    dsimp only at stored ⊢
    by_cases own : q = p
    · rw [own]
      exact below
    · rw [Function.update_of_ne own] at stored
      exact Nat.lt_of_lt_of_le (sound.below q t stored) more
  givenBelow := fun g listed => Nat.lt_of_lt_of_le (sound.givenBelow g listed) more
  held := by
    intro g listed t stored
    dsimp only at stored
    by_cases own : g.pointer = p
    · rw [own, Function.update_self] at stored
      exact same g listed own t stored
    · rw [Function.update_of_ne own] at stored
      exact sound.held g listed t stored
  one := sound.one

theorem Sound.put (sound : Sound r env) {p : ℕ} {s s' : Session m} (found : env.sessions p = some s)
    (same : (∃ g ∈ env.given, g.pointer = p) →
      r.challenge s'.internal = r.challenge s.internal) : Sound r (env.put p s') := by
  apply sound.update env.sessionCount env.session (Nat.le_refl _) (sound.below p s found)
  intro g listed own t stored
  cases stored
  rw [same ⟨g, listed, own⟩]
  exact sound.held g listed s (by rw [own, found])

theorem Sound.start (sound : Sound r env) (count : UInt64) (ids : UInt64 → Option ℕ)
    (s : Session m) : Sound r { env with
      sessionCount := count, made := env.made + 1, session := ids
      sessions := Function.update env.sessions env.made (some s) } := by
  apply sound.update count ids (Nat.le_succ _) (Nat.lt_succ_self _)
  intro g listed own
  exact absurd own (Nat.ne_of_lt (sound.givenBelow g listed))

theorem Sound.refuse (sound : Sound r env) (count : UInt64) (ids : UInt64 → Option ℕ) :
    Sound r { env with sessionCount := count, made := env.made + 1, session := ids } where
  below := fun q t stored => Nat.lt_succ_of_lt (sound.below q t stored)
  givenBelow := fun g listed => Nat.lt_succ_of_lt (sound.givenBelow g listed)
  held := sound.held
  one := sound.one

theorem Sound.stop (sound : Sound r env) {p : ℕ} {s : Session m} (found : env.sessions p = some s)
    (ids : UInt64 → Option ℕ) : Sound r { env with
      session := ids, sessions := Function.update env.sessions p none } := by
  apply sound.update env.sessionCount ids (Nat.le_refl _) (sound.below p s found)
  intro g listed own t stored
  cases stored

theorem Sound.give (sound : Sound r env) {p : ℕ} {s : Session m} (found : env.sessions p = some s)
    {raw : Bytes 32} (genuine : Genuine r ⟨p, s.internal, raw⟩) :
    Sound r { env with given := ⟨p, s.internal, raw⟩ :: env.given } where
  below := sound.below
  givenBelow := by
    intro g listed
    obtain rfl | earlier := List.mem_cons.mp listed
    · exact sound.below p s found
    · exact sound.givenBelow g earlier
  held := by
    intro g listed t stored
    obtain rfl | earlier := List.mem_cons.mp listed
    · rw [found, Option.some.injEq] at stored
      rw [stored]
    · exact sound.held g earlier t stored
  one := by
    have new : ∀ g ∈ env.given, g.pointer = p →
        r.challenge s.internal = r.challenge g.internal := by
      intro g listed own
      exact sound.held g listed s (by rw [own, found])
    constructor
    · intro g listed
      obtain rfl | earlier := List.mem_cons.mp listed
      · exact genuine
      · exact sound.one.1 g earlier
    · intro g listed g' listed' same
      obtain rfl | earlier := List.mem_cons.mp listed
      · obtain rfl | earlier' := List.mem_cons.mp listed'
        · rfl
        · exact new g' earlier' same.symm
      · obtain rfl | earlier' := List.mem_cons.mp listed'
        · exact (new g earlier same).symm
        · exact sound.one.2 g earlier g' earlier' same

theorem Sound.abort (sound : Sound r env) (aborted : Bool) :
    Sound r { env with aborted := aborted } where
  below := sound.below
  givenBelow := sound.givenBelow
  held := sound.held
  one := sound.one

end Challenges

section Steps

variable {m : Machine} {r : Reading m.lib} {env : Env m}

theorem sessions_getMusigSession {a : Arg} {p : ℕ} {s : Session m}
    (found : env.getMusigSession a = some (p, s)) : env.sessions p = some s := by
  unfold Env.getMusigSession at found
  split at found
  · obtain ⟨pointer, -, found⟩ := Option.bind_eq_some_iff.mp found
    obtain ⟨session, stored, pair⟩ := Option.map_eq_some_iff.mp found
    cases pair
    exact stored
  · cases found

theorem withSession_fst (holds : Env m → Prop) (unchanged : holds env) {call : String} {a : Arg}
    {rest : ℕ → Session m → Env m × Outcome}
    (changed : ∀ p s, env.getMusigSession a = some (p, s) → holds (rest p s).1) :
    holds (env.withSession call a rest).1 := by
  rw [Env.withSession]
  cases found : env.getMusigSession a with
  | none => exact unchanged
  | some pair => exact changed pair.1 pair.2 found

theorem internal_setNonces (call : String) (i : ℕ) (l : List Arg) (s : Session m) :
    (setNonces m call i l s).1.internal = s.internal := by
  induction l generalizing i s with
  | nil => rfl
  | cons a l ih =>
    have one {nonce : m.lib.Pubkey} {t : Session m} (set : setNonce m s i nonce = some t) :
        t.internal = s.internal := by
      rw [setNonce] at set
      split at set
      · obtain ⟨signer, -, rfl⟩ := Option.map_eq_some_iff.mp set
        rfl
      · cases set
        rfl
    rw [setNonces]
    split
    · rfl
    · split
      · rfl
      · split
        · rfl
        next t set => rw [ih, one set]

theorem Sound.musigStart (sound : Sound r env) (fresh : Fresh)
    (session pubkey hash myIndex numSigners privkey data : Arg) :
    Sound r (musigStart m env fresh session pubkey hash myIndex numSigners privkey data).1 := by
  rw [Musig.musigStart]
  split
  · exact sound
  · dsimp only
    split
    · exact sound.refuse _ _
    · exact sound.start _ _ _

theorem Sound.musigSetPublicKey (sound : Sound r env) (session index pubkey : Arg) :
    Sound r (musigSetPublicKey m env session index pubkey).1 := by
  apply withSession_fst (Sound r) sound
  intro p s found
  cases index with
  | int i =>
    dsimp only
    split
    · exact sound
    · split
      · exact sound
      · exact sound.put (sessions_getMusigSession found) fun _ => rfl
  | _ => exact sound

theorem Sound.musigPrepare (sound : Sound r env) (session commitments nonce : Arg) :
    Sound r (musigPrepare m env session commitments nonce).1 := by
  apply withSession_fst (Sound r) sound
  intro p s found
  cases commitments with
  | list l =>
    dsimp only
    split
    · exact sound
    · split
      · exact sound
      · split
        · exact sound
        next prepared =>
          obtain ⟨secret, message, combination⟩ := r.getPublicNonce_eq _ _ _ _ _ _ prepared
          split <;>
            exact sound.put (sessions_getMusigSession found) fun _ => by
              rw [Reading.challenge, secret, message, combination]
              rfl
  | _ => exact sound

theorem Sound.musigNonces (sound : Sound r env) {session nonces : Arg} {adaptor : Option Arg}
    (recombines : Recombines r env (.nonces session nonces adaptor)) :
    Sound r (musigNonces m env session nonces adaptor).1 := by
  apply withSession_fst (Sound r) sound
  intro p s found
  have stored := sessions_getMusigSession found
  cases nonces with
  | list l =>
    dsimp only
    split
    · exact sound
    next length =>
      have same := internal_setNonces (m := m) (noncesCall adaptor) 0 l s
      split
      next s' outcome set =>
        rw [set] at same
        exact sound.put stored fun _ => by rw [same]
      next s' set =>
        rw [set] at same
        split
        · exact sound.put stored fun _ => by rw [same]
        next adaptorUsed read =>
          split
          · exact sound.put stored fun _ => by rw [same]
          next internal negated combined =>
            obtain ⟨secret, message, combination⟩ := r.combineNonces_eq _ _ _ _ _ combined
            apply sound.put stored
            intro signed
            have kept := recombines p s s' adaptorUsed l
              ⟨found, rfl, not_not.mp length, set, read, by rw [combined]; rfl⟩ signed
            rw [Reading.challenge, secret, message, combination, same, Reading.challenge, kept,
              same]
  | _ => exact sound

theorem Sound.musigPartialSign (sound : Sound r env) (session signature : Arg) :
    Sound r (musigPartialSign m env session signature).1 := by
  apply withSession_fst (Sound r) sound
  intro p s found
  split
  · exact sound
  next sig signed =>
    split
    · exact sound
    next raw serialized =>
      split
      · rw [r.partialSign_eq, Option.bind_eq_some_iff] at signed
        obtain ⟨c, combination, signed⟩ := signed
        exact sound.give (sessions_getMusigSession found) ⟨c, sig, combination, signed, serialized⟩
      · exact sound

theorem Sound.musigEnd (sound : Sound r env) (session : Arg) :
    Sound r (musigEnd m env session).1 :=
  withSession_fst (Sound r) sound fun _ _ found => sound.stop (sessions_getMusigSession found) _

theorem musigNonceCommit_fst (session commitment : Arg) :
    (musigNonceCommit m env session commitment).1 = env :=
  withSession_fst (· = env) rfl fun _ _ _ => rfl

theorem musigNonceNegated_fst (session negated : Arg) :
    (musigNonceNegated m env session negated).1 = env := by
  apply withSession_fst (· = env) rfl
  intro p s found
  cases negated <;> rfl

theorem musigPartialSignAdapt_fst (session signature secret adapted : Arg) :
    (musigPartialSignAdapt m env session signature secret adapted).1 = env := by
  apply withSession_fst (· = env) rfl
  intro p s found
  split
  · rfl
  · split
    · rfl
    · split
      · rfl
      · split
        · rfl
        · split <;> rfl

theorem musigFinalSign_fst (session signatures : Arg) (tweak : Option Arg) (signature : Arg) :
    (musigFinalSign m env session signatures tweak signature).1 = env := by
  apply withSession_fst (· = env) rfl
  intro p s found
  cases signatures with
  | list l =>
    dsimp only
    split
    · rfl
    · split
      · rfl
      · split
        · rfl
        · split
          · rfl
          · split <;> rfl
  | _ => rfl

theorem Sound.run (sound : Sound r env) {call : Call} (recombines : Recombines r env call) :
    Sound r (run m env call).1 := by
  cases call with
  | start fresh session pubkey hash myIndex numSigners privkey data =>
    exact sound.musigStart fresh session pubkey hash myIndex numSigners privkey data
  | setPublicKey session index pubkey => exact sound.musigSetPublicKey session index pubkey
  | nonceCommit session commitment =>
    rw [Musig.run, musigNonceCommit_fst]
    exact sound
  | prepare session commitments nonce => exact sound.musigPrepare session commitments nonce
  | nonces session nonces adaptor => exact sound.musigNonces recombines
  | partialSign session signature => exact sound.musigPartialSign session signature
  | partialSignAdapt session signature secret adapted =>
    rw [Musig.run, musigPartialSignAdapt_fst]
    exact sound
  | finalSign session signatures tweak signature =>
    rw [Musig.run, musigFinalSign_fst]
    exact sound
  | nonceNegated session negated =>
    rw [Musig.run, musigNonceNegated_fst]
    exact sound
  | stop session => exact sound.musigEnd session

theorem Sound.step (sound : Sound r env) {call : Call} (recombines : Recombines r env call) :
    Sound r (step m env call) := by
  rw [Musig.step]
  split
  · exact sound
  · exact (sound.run recombines).abort _

theorem Sound.throughout (sound : Sound r env) (calls : List Call)
    (recombines : EachStep (Musig.step m) (Recombines r) env calls) :
    Throughout (Musig.step m) (OneChallenge r) env calls := by
  induction calls generalizing env with
  | nil => exact sound.one
  | cons call calls ih => exact ⟨sound.one, ih (sound.step recombines.1) recombines.2⟩

/-- While a session that has signed is given only the combination it holds, all its partial
signatures are for one challenge, in every run. -/
theorem one_challenge_throughout (m : Machine) (r : Reading m.lib) (calls : List Call)
    (recombines : EachStep (step m) (Recombines r) (Env.empty m) calls) :
    Throughout (step m) (OneChallenge r) (Env.empty m) calls :=
  (Sound.empty r).throughout calls recombines

end Steps

section Vector

theorem length_bytes (size n : ℕ) :
    ((List.range size).map fun i => UInt8.ofNat (n / 256 ^ (size - 1 - i))).length = size := by
  rw [List.length_map, List.length_range]

/-- Bytes from a number, the first one highest -/
def bytes (size n : ℕ) : Bytes size :=
  ⟨(List.range size).map fun i => UInt8.ofNat (n / 256 ^ (size - 1 - i)), length_bytes size n⟩

def big (size n : ℕ) : Arg := newBignum (bytes size n)

/-- The hash of a message, the only signer's key and the combination of it with its hash -/
def message : ℕ := 0x0102030405060708090a0b0c0d0e0f101112131415161718191a1b1c1d1e1f20

def key : ℕ := 0x2c70e12b7a0646f92279f427c7b38e7334d8e5389cff167a1dc30e73f826b683

def combinedKey : ℕ := 0x027e2815775591ea2a41bd1e738f6f1fc681daa29479692802a9b9d1200f4db76b

def keyHash : ℕ := 0xf198251e2620bf7dbb6d54f7507001ed5ecb4bbbfd00357b9409af0c7cd2e7af

/-- The secret nonce for the session id of zeros, its point and the commitment to this -/
def secretNonce : ℕ := 0x49a99f7166679bda43ef441a8f9e2fbd81cfe2e17d06d64814735f5c3b167266

def nonce : ℕ := 0x03c9424ddde0ba0c543c3b33c21773268a467129fdcdb856f83d7cac799231e0d2

def commitment : ℕ := 0xffe64dca9f5c3c94f01580d1f3538a129a5a44312967a92ec17779cef17745a3

def adaptor : ℕ := 0x029afcbea915044f7f0888931467e0dccc08fcacb3ae1b2d222994660501e7f3ba

/-- The combined nonces, the first of which is negated, and the partial signatures -/
def plainNonce : ℕ := 0x02c9424ddde0ba0c543c3b33c21773268a467129fdcdb856f83d7cac799231e0d2

def adaptedNonce : ℕ := 0x023a6bda658b7b35e4013cb28ce1832efe8f873ac6841883f83cbd77cfe9f1a205

def plainSignature : ℕ := 0x7f6ad5609d2d60f330a3d97df77ff51357a67b3ac080c6ffe52c2496b4ff1c78

def adaptedSignature : ℕ := 0x7067a3bc8547357246cd4211ead23f7d5e3e51f2a0a77453cdb90c1f6bb9f462

structure VectorSession where
  secret : ℕ
  message : Bytes 32
  combination : Option ℕ
  deriving DecidableEq

/-- The combined nonce of the only signer, with the adaptor or without -/
def vectorCombined (signers : List (Option (Bytes 33))) (used : Option (Bytes 33)) :
    Option (ℕ × Bool) :=
  if signers = [some (bytes 33 nonce)] then
    match used with
    | none => some (plainNonce, true)
    | some point => if point = bytes 33 adaptor then some (adaptedNonce, false) else none
  else none

def vectorSign (secret combination : ℕ) (data : Bytes 32) : Option (Bytes 32) :=
  if secret = secretNonce ∧ data = bytes 32 message then
    if combination = plainNonce then some (bytes 32 plainSignature)
    else if combination = adaptedNonce then some (bytes 32 adaptedSignature)
    else none
  else none

def vectorInitialize (id data : Bytes 32) (combined : Bytes 33) (hash : Bytes 32) (n : ℕ)
    (index : UInt64) (privkey : Bytes 32) :
    Option (VectorSession × List (Option (Bytes 33)) × Bytes 32) :=
  if id = Bytes.zero 32 ∧ data = bytes 32 message ∧ combined = bytes 33 combinedKey ∧
      hash = bytes 32 keyHash ∧ n = 1 ∧ index = 0 ∧ privkey = bytes 32 key then
    some (⟨secretNonce, data, none⟩, [none], bytes 32 commitment)
  else none

/-- The library on this signer and these nonces, with its results -/
def vector : Library where
  Session := VectorSession
  Signer := Option (Bytes 33)
  Pubkey := Bytes 33
  Partial := Bytes 32
  Schnorr := Bytes 64
  pubkeyParse := fun raw => if raw ∈ [bytes 33 combinedKey, bytes 33 nonce, bytes 33 adaptor] then
    some raw else none
  pubkeySerialize := some
  sessionInitialize := vectorInitialize
  getPublicNonce := fun session signers commitments data =>
    if commitments = [bytes 32 commitment] ∧ data = none then
      some (bytes 33 nonce, session, signers)
    else none
  setNonce := fun _ point => if point = bytes 33 nonce then some (some point) else none
  combineNonces := fun session signers used => (vectorCombined signers used).map fun combined =>
    ({ session with combination := some combined.1 }, combined.2)
  partialSign := fun session => session.combination.bind fun combination =>
    vectorSign session.secret combination session.message
  partialSerialize := some
  partialParse := some
  partialSigAdapt := fun _ _ _ => none
  partialSigCombine := fun _ _ _ => none
  schnorrSerialize := some

def vectorReading : Reading vector where
  Secret := ℕ
  Combination := ℕ
  secret := VectorSession.secret
  message := VectorSession.message
  combination := VectorSession.combination
  combined := fun _ signers used => ((vectorCombined signers used).map Prod.fst).getD 0
  sign := vectorSign
  sessionInitialize_eq := by
    intro id data combined hash n index privkey session signers commitment made
    dsimp only [vector, vectorInitialize] at made
    split at made
    · cases made
      exact ⟨rfl, rfl⟩
    · cases made
  getPublicNonce_eq := by
    intro session signers commitments point session' signers' prepared
    dsimp only [vector] at prepared
    split at prepared
    · cases prepared
      exact ⟨rfl, rfl, rfl⟩
    · cases prepared
  combineNonces_eq := by
    intro session signers used session' negated combined
    obtain ⟨point, known, pair⟩ := Option.map_eq_some_iff.mp combined
    cases pair
    refine ⟨rfl, rfl, ?_⟩
    rw [known]
    rfl
  partialSign_eq := fun _ => rfl

def vectorMachine : Machine where
  lib := vector
  asserts := true
  text := fun _ => ""
  hashed2 := fun a => getBignum 32 a
  checksum := fun _ => Bytes.zero 4

def session : Arg := .str "$musig" [.int 1]

/-- A session of the only signer up to its first signature -/
def firstSignature : List Call :=
  [.start ⟨Bytes.zero 32, false⟩ .ref (big 33 combinedKey) (big 32 keyHash) (.int 0) (.int 1)
      (big 32 key) (big 32 message),
    .prepare session (.list [big 32 commitment]) .ref,
    .nonces session (.list [big 33 nonce]) none,
    .partialSign session .ref]

/-- The same nonces again, with the adaptor, and a second signature -/
def secondSignature : List Call :=
  [.nonces session (.list [big 33 nonce]) (some (big 33 adaptor)), .partialSign session .ref]

theorem given_secondSignature :
    ((firstSignature ++ secondSignature).foldl (step vectorMachine)
      (Env.empty vectorMachine)).given =
    [⟨0, ⟨secretNonce, bytes 32 message, some adaptedNonce⟩, bytes 32 adaptedSignature⟩,
      ⟨0, ⟨secretNonce, bytes 32 message, some plainNonce⟩, bytes 32 plainSignature⟩] := by
  rfl

/-- The same nonces twice, with a signature after each -/
theorem one_challenge_throughout_again : Throughout (step vectorMachine)
    (OneChallenge vectorReading) (Env.empty vectorMachine) (firstSignature ++
      [.nonces session (.list [big 33 nonce]) none, .partialSign session .ref]) := by
  apply one_challenge_throughout vectorMachine vectorReading
  refine ⟨trivial, trivial, ?_, trivial, ?_, trivial, trivial⟩
  · intro pointer s s' used l stores signed
    obtain ⟨g, listed, -⟩ := signed
    cases listed
  · intro pointer s s' used l stores signed
    have found := stores.found
    have set := stores.set
    have read := stores.read
    cases found
    cases stores.list
    cases read
    cases set
    rfl

/-- With and without the adaptor, one secret nonce signs for two combined nonces. -/
theorem adaptor_after_signature : ¬ Throughout (step vectorMachine) (OneChallenge vectorReading)
    (Env.empty vectorMachine) (firstSignature ++ secondSignature) := by
  intro all
  have last := all.last.2
  rw [given_secondSignature] at last
  have same := last _ (List.mem_cons_self) _ (List.mem_cons_of_mem _ List.mem_cons_self) rfl
  cases same

end Vector

end Epilog.Ec.Musig
