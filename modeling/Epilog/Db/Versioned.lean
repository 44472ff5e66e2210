/- Module: Epilog/Db/Versioned
   source: src/src/db/triedb.cpp, src/src/db/triedb.hpp (root operations, find)
   digest: Runs of root operations against the abstract versioned map. -/

import Epilog.Db.Iterator

set_option autoImplicit false

namespace Epilog.Db.Versioned

open Epilog.Lib.DigitTree Epilog.Common.Bits Epilog.Db.Branch Epilog.Db.Store
open Epilog.Db.Representation Epilog.Db.PathUpdate Epilog.Db.Iterator

/-- The root operations of the database. -/
inductive Op
  | newRoot
  | newRootFrom (parent : RootId)
  | insert (atRoot : RootId) (key : UInt64) (data : Bytes)
  | update (atRoot : RootId) (key : UInt64) (data : Bytes)
  | remove (atRoot : RootId) (key : UInt64)
  deriving DecidableEq

/-- What the caller sees: a new root, completion, or a thrown exception. -/
inductive Reply
  | root (id : RootId)
  | done
  | failed
  deriving DecidableEq, Repr

def perform (P : TriedbParams) : Op → Access Reply
  | .newRoot => Reply.root <$> newRoot P
  | .newRootFrom parent => Reply.root <$> newRootFrom parent
  | .insert atRoot key data => (fun _ => .done) <$> insert P atRoot key data
  | .update atRoot key data => (fun _ => .done) <$> update P atRoot key data
  | .remove atRoot key => (fun _ => .done) <$> remove P atRoot key

/-- One call; a thrown exception leaves the database as it was at the throw, and a failed
assertion ends the process. -/
def step (P : TriedbParams) (s : Triedb) (op : Op) : Option (Reply × Triedb) :=
  match perform P op s with
  | .ok reply s' => some (reply, s')
  | .error .assertion _ => none
  | .error _ s' => some (.failed, s')

section Abstract

/-- The abstract state: the map of every root handed out so far. -/
abbrev Versions := RootId → Option (UInt64 → Option Bytes)

/-- What an operation has to do to the abstract state. A new root has a new name. -/
inductive Meets (m : Versions) : Op → Reply → Versions → Prop
  | newRoot {r : RootId} (unused : m r = none) :
      Meets m .newRoot (.root r) (Function.update m r (some fun _ => none))
  | newRootFrom {parent r : RootId} {f : UInt64 → Option Bytes} (known : m parent = some f)
      (unused : m r = none) :
      Meets m (.newRootFrom parent) (.root r) (Function.update m r (some f))
  | insert {r : RootId} {key : UInt64} {data : Bytes} {f : UInt64 → Option Bytes}
      (known : m r = some f) (absent : f key = none) :
      Meets m (.insert r key data) .done
        (Function.update m r (some (Function.update f key (some data))))
  | insertPresent {r : RootId} {key : UInt64} {data : Bytes} {f : UInt64 → Option Bytes}
      (known : m r = some f) (present : (f key).isSome = true) :
      Meets m (.insert r key data) .failed m
  | update {r : RootId} {key : UInt64} {data : Bytes} {f : UInt64 → Option Bytes}
      (known : m r = some f) :
      Meets m (.update r key data) .done
        (Function.update m r (some (Function.update f key (some data))))
  | remove {r : RootId} {key : UInt64} {f : UInt64 → Option Bytes}
      (known : m r = some f) (present : (f key).isSome = true) :
      Meets m (.remove r key) .done (Function.update m r (some (Function.update f key none)))
  | removeAbsent {r : RootId} {key : UInt64} (absent : ∀ f, m r = some f → f key = none) :
      Meets m (.remove r key) .failed m

theorem Meets.unique {m m₁ m₂ : Versions} {op : Op} {reply : Reply} (first : Meets m op reply m₁)
    (second : Meets m op reply m₂) : m₁ = m₂ := by
  cases first <;> cases second <;> simp_all

/-- The calls that may end in a failed assertion: unknown roots and oversized data. -/
def Excused (P : TriedbParams) (m : Versions) : Op → Prop
  | .newRoot => False
  | .newRootFrom parent => m parent = none
  | .insert atRoot _ data => m atRoot = none ∨ ¬ Storable P data
  | .update atRoot _ data => m atRoot = none ∨ ¬ Storable P data
  | .remove _ _ => False

/-- `find` at every known root answers the map of that root. -/
def Answers (s : Triedb) (m : Versions) : Prop :=
  ∀ r f, m r = some f → ∀ key, ∃ found : Option TriedbLeaf,
    (∃ n, ∀ fuel ≥ n, find s fuel r key = some found) ∧ (∀ l ∈ found, l.key = key) ∧
      found.map (·.customData) = f key

/-- Along the run every operation does what the abstract state asks for, and after each of them
`find` agrees with the maps. -/
def RefinesVersions (P : TriedbParams) : Triedb → Versions → List Op → Prop
  | s, m, [] => Answers s m
  | s, m, op :: ops => Answers s m ∧
      match step P s op with
      | none => Excused P m op
      | some (reply, s') => ∃ m', Meets m op reply m' ∧ RefinesVersions P s' m' ops

/-- Every `new_root()` of the run finds the stream at the end of the roots file. -/
def NewRootsAtEnd (P : TriedbParams) : Triedb → List Op → Prop
  | _, [] => True
  | s, op :: ops => (op = .newRoot → s.rootsPos = s.rootsEnd) ∧
      match step P s op with
      | none => True
      | some (_, s') => NewRootsAtEnd P s' ops

instance (P : TriedbParams) : (s : Triedb) → (ops : List Op) → Decidable (NewRootsAtEnd P s ops)
  | _, [] => .isTrue trivial
  | s, op :: ops =>
      let decideAfter : (after : Option (Reply × Triedb)) → Decidable (match after with
          | none => True
          | some (_, s') => NewRootsAtEnd P s' ops) := fun
        | none => .isTrue trivial
        | some (_, s') => instDecidableNewRootsAtEnd P s' ops
      @instDecidableAnd _ _ inferInstance (decideAfter (step P s op))

end Abstract

section Sound

/-- The root record `root` stands for the map `f`. -/
def RootRepresents (s : Triedb) (root : TriedbRoot) (f : UInt64 → Option Bytes) : Prop :=
  ∃ d b c, d ≤ MAX_DEPTH ∧ s.nodes root.ptr = some (.branch b) ∧ Represents s d b c ∧
    (Tree.branch c).Fits d 0 ∧ ∀ key, f key = (Tree.branch c).lookup d key.toNat

/-- The position of the `i`-th record of the roots file. -/
def recordPos (i : ℕ) : ℕ := VERSION_SZ + 4 + TriedbRoot.serializationSize * i

/-- The representation invariant of the database. -/
structure Sound (s : Triedb) (m : Versions) : Prop where
  fresh : Fresh s
  known : ∀ r f, m r = some f → ∃ root, s.roots.lookup r = some root ∧ root.id = r ∧
    RootRepresents s root f
  ids : ∀ r, (m r).isSome = true ↔ ∃ i < s.rootsFile.length, r = recordPos i
  unknown : ∀ r, m r = none → s.roots.lookup r = none
  pos : ∃ i ≤ s.rootsFile.length, s.rootsPos = recordPos i

theorem RootRepresents.mono {s s' : Triedb} (keep : ∀ p n, s.nodes p = some n → s'.nodes p = some n)
    {root root' : TriedbRoot} (ptr : root'.ptr = root.ptr) {f : UInt64 → Option Bytes}
    (rep : RootRepresents s root f) : RootRepresents s' root' f := by
  obtain ⟨d, b, c, shallow, stored, below, fits, same⟩ := rep
  exact ⟨d, b, c, shallow, by rw [ptr]; exact keep _ _ stored, below.mono keep, fits, same⟩

theorem sound_empty : Sound {} fun _ => none where
  fresh _ _ := rfl
  known _ _ impossible := nomatch impossible
  ids r := by
    change false = true ↔ ∃ i < 0, r = recordPos i
    simp
  unknown _ _ := rfl
  pos := ⟨0, le_rfl, rfl⟩

theorem Sound.answers {s : Triedb} {m : Versions} (sound : Sound s m) : Answers s m := by
  intro r f here key
  obtain ⟨root, entry, _, d, b, c, shallow, stored, rep, fits, same⟩ := sound.known r f here
  have nonzero : r ≠ 0 := by
    obtain ⟨i, _, rfl⟩ := (sound.ids r).mp (by rw [here]; rfl)
    simp [recordPos, VERSION_SZ]
  rw [same key]
  exact find_eq key nonzero entry shallow stored rep fits

@[simp] theorem lookup_setRootEntry (s : Triedb) (id : RootId) (root : TriedbRoot) (r : RootId) :
    (s.setRootEntry id root).roots.lookup r = if r = id then some root else s.roots.lookup r := by
  simp only [Triedb.setRootEntry, List.lookup_cons]
  by_cases same : r = id
  · simp [same]
  · rw [if_neg same, beq_false_of_ne same]

theorem rootsEnd_eq (s : Triedb) : s.rootsEnd = recordPos s.rootsFile.length := rfl

theorem recordPos_injective : Function.Injective recordPos := by
  intro i j same
  simp only [recordPos, TriedbRoot.serializationSize] at same
  omega

theorem recordPos_succ (i : ℕ) :
    recordPos i + TriedbRoot.serializationSize = recordPos (i + 1) := by
  simp only [recordPos, TriedbRoot.serializationSize]
  omega

theorem Sound.extend {s s' : Triedb} {m : Versions} (sound : Sound s m) (grows : Extends s s')
    (fresh : Fresh s') : Sound s' m where
  fresh := fresh
  known r f here := by
    obtain ⟨root, entry, id, rep⟩ := sound.known r f here
    exact ⟨root, by rw [grows.roots]; exact entry, id, rep.mono grows.nodes rfl⟩
  ids r := by rw [grows.rootsFile]; exact sound.ids r
  unknown r absent := by rw [grows.roots]; exact sound.unknown r absent
  pos := by rw [grows.rootsFile, grows.rootsPos]; exact sound.pos

theorem Sound.rootsEnd_unused {s : Triedb} {m : Versions} (sound : Sound s m) :
    m s.rootsEnd = none := by
  rw [← Option.not_isSome_iff_eq_none, sound.ids]
  rintro ⟨i, less, same⟩
  have := recordPos_injective ((rootsEnd_eq s).symm.trans same)
  omega

theorem Sound.addRoot {s : Triedb} {m : Versions} (sound : Sound s m) {root : TriedbRoot}
    {f : UInt64 → Option Bytes} (id : root.id = s.rootsEnd) (rep : RootRepresents s root f) :
    Sound ((writeRootAtEnd root s).setRootEntry s.rootsEnd root)
      (Function.update m s.rootsEnd (some f)) where
  fresh := sound.fresh
  known r g here := by
    have keep : ∀ p n, s.nodes p = some n →
        ((writeRootAtEnd root s).setRootEntry s.rootsEnd root).nodes p = some n :=
      fun _ _ stored => stored
    rw [Function.update_apply] at here
    rw [lookup_setRootEntry]
    by_cases same : r = s.rootsEnd
    · rw [if_pos same] at here ⊢
      cases here
      exact ⟨root, rfl, id.trans same.symm, rep.mono keep rfl⟩
    · rw [if_neg same] at here ⊢
      obtain ⟨other, entry, id', rep'⟩ := sound.known r g here
      exact ⟨other, entry, id', rep'.mono keep rfl⟩
  ids r := by
    rw [Function.update_apply]
    have length : ((writeRootAtEnd root s).setRootEntry s.rootsEnd root).rootsFile.length =
        s.rootsFile.length + 1 := List.length_append
    rw [length]
    by_cases same : r = s.rootsEnd
    · rw [if_pos same]
      exact ⟨fun _ => ⟨s.rootsFile.length, by omega, same⟩, fun _ => rfl⟩
    · rw [if_neg same, sound.ids]
      constructor
      · rintro ⟨i, less, here⟩
        exact ⟨i, by omega, here⟩
      · rintro ⟨i, less, here⟩
        refine ⟨i, ?_, here⟩
        have : i ≠ s.rootsFile.length := by
          rintro rfl
          exact same here
        omega
  unknown r absent := by
    rw [Function.update_apply] at absent
    rw [lookup_setRootEntry]
    by_cases same : r = s.rootsEnd
    · rw [if_pos same] at absent
      cases absent
    · rw [if_neg same] at absent ⊢
      exact sound.unknown r absent
  pos := by
    refine ⟨s.rootsFile.length + 1, ?_, recordPos_succ _⟩
    change _ ≤ (s.rootsFile ++ [root]).length
    rw [List.length_append, List.length_singleton]

theorem Sound.rewriteRoot {s s' : Triedb} {m : Versions} (sound : Sound s m) {r : RootId}
    {root : TriedbRoot} {f : UInt64 → Option Bytes} (live : (m r).isSome = true)
    (rep : RootRepresents s root f) (id : root.id = r) (nodes : s'.nodes = s.nodes)
    (lastOffset : s'.lastOffset = s.lastOffset)
    (roots : ∀ r', s'.roots.lookup r' = if r' = r then some root else s.roots.lookup r')
    (length : s'.rootsFile.length = s.rootsFile.length)
    (pos : s'.rootsPos = r + TriedbRoot.serializationSize) :
    Sound s' (Function.update m r (some f)) where
  fresh p beyond := by
    rw [nodes]
    exact sound.fresh p (lastOffset ▸ beyond)
  known r' g here := by
    rw [Function.update_apply] at here
    rw [roots]
    have keep : ∀ p n, s.nodes p = some n → s'.nodes p = some n := fun p n stored => nodes ▸ stored
    by_cases same : r' = r
    · rw [if_pos same] at here ⊢
      cases here
      exact ⟨root, rfl, id.trans same.symm, rep.mono keep rfl⟩
    · rw [if_neg same] at here ⊢
      obtain ⟨other, entry, id', rep'⟩ := sound.known r' g here
      exact ⟨other, entry, id', rep'.mono keep rfl⟩
  ids r' := by
    rw [length, ← sound.ids, Function.update_apply]
    by_cases same : r' = r
    · rw [if_pos same, same, live]
      exact ⟨fun _ => rfl, fun _ => rfl⟩
    · rw [if_neg same]
  unknown r' absent := by
    rw [Function.update_apply] at absent
    rw [roots]
    by_cases same : r' = r
    · rw [if_pos same] at absent
      cases absent
    · rw [if_neg same] at absent ⊢
      exact sound.unknown r' absent
  pos := by
    obtain ⟨i, less, here⟩ := (sound.ids r).mp live
    exact ⟨i + 1, by omega, by rw [pos, here, recordPos_succ]⟩

end Sound

section Operations

variable (P : TriedbParams)

theorem getRoot_ok {s : Triedb} {r : RootId} {root : TriedbRoot}
    (entry : s.roots.lookup r = some root) : getRoot r s = .ok root s := by
  simp only [getRoot, entry]

theorem getRoot_error {s : Triedb} {r : RootId} (absent : s.roots.lookup r = none) :
    getRoot r s = .error .assertion s := by
  simp only [getRoot, absent]

theorem newRoot_ok {s : Triedb} {m : Versions} (sound : Sound s m) :
    ∃ s₁ root, newRoot P s = .ok s₁.rootsPos
        ((writeRootAtEnd root s₁).setRootEntry s₁.rootsPos root) ∧ Extends s s₁ ∧ Sound s₁ m ∧
      root.id = s₁.rootsPos ∧ root.height = 0 ∧ RootRepresents s₁ root fun _ => none := by
  have bare := represents_fresh s (by decide : 0 + 1 < 256)
  obtain ⟨h, hashed⟩ := branchHasher_ok P bare
  have stored := extends_appendNode P sound.fresh
    (.branch ((({} : TriedbBranch).setDepth 1).setHash h))
    ((({} : TriedbBranch).setDepth 1).setHash h).serializationSize
  have fresh := fresh_appendNode P sound.fresh
    (.branch ((({} : TriedbBranch).setDepth 1).setHash h))
    (serializationSize_pos ((({} : TriedbBranch).setDepth 1).setHash h))
  refine ⟨_, _, bind_ok hashed, stored, sound.extend stored fresh, rfl, rfl, ?_⟩
  refine ⟨1, _, _, by decide, nodes_appendNode P _ _ _,
    represents_setHash.mpr (bare.mono stored.nodes), fun i => trivial, fun key => rfl⟩

theorem newRootFrom_ok {s : Triedb} {m : Versions} (sound : Sound s m) {parent : RootId}
    {f : UInt64 → Option Bytes} (known : m parent = some f) :
    ∃ s', newRootFrom parent s = .ok s.rootsEnd s' ∧
      Sound s' (Function.update m s.rootsEnd (some f)) := by
  obtain ⟨root, entry, _, rep⟩ := sound.known parent f known
  refine ⟨_, bind_ok (getRoot_ok entry), ?_⟩
  exact sound.addRoot rfl (rep.mono (fun _ _ stored => stored) rfl)

theorem setRoot_ok {s : Triedb} {r : RootId} {root : TriedbRoot} (offset : ℕ)
    (entry : s.roots.lookup r = some root) (id : root.id = r) :
    ∃ s', setRoot r offset s = .ok () s' ∧ s'.nodes = s.nodes ∧ s'.lastOffset = s.lastOffset ∧
      (∀ r', s'.roots.lookup r' =
        if r' = r then some { root with ptr := offset } else s.roots.lookup r') ∧
      s'.rootsFile.length = s.rootsFile.length ∧
      s'.rootsPos = r + TriedbRoot.serializationSize := by
  refine ⟨_, bind_ok (getRoot_ok entry), rfl, rfl, fun r' => lookup_setRootEntry _ _ _ _,
    List.length_set, ?_⟩
  change root.id + _ = _
  rw [id]

theorem repoint_ok {s : Triedb} {m : Versions} (sound : Sound s m) {r : RootId}
    {f g : UInt64 → Option Bytes} (known : m r = some f) {d p : ℕ} {b : TriedbBranch}
    {c : Children} (shallow : d ≤ MAX_DEPTH) (stored : s.nodes p = some (.branch b))
    (rep : Represents s d b c) (fits : (Tree.branch c).Fits d 0)
    (same : ∀ key, g key = (Tree.branch c).lookup d key.toNat) (count : UInt64 → UInt64) :
    (∃ s', setRoot r p s = .ok () s' ∧ Sound s' (Function.update m r (some g))) ∧
    ∃ s₁, modifyNumEntries r count s = .ok () s₁ ∧
      ∃ s', setRoot r p s₁ = .ok () s' ∧ Sound s' (Function.update m r (some g)) := by
  obtain ⟨root, entry, id, _⟩ := sound.known r f known
  have live : (m r).isSome = true := by
    rw [known]
    rfl
  constructor
  · obtain ⟨s', ran, nodes, lastOffset, roots, length, pos⟩ := setRoot_ok p entry id
    have now : RootRepresents s { root with ptr := p } g :=
      ⟨d, b, c, shallow, stored, rep, fits, same⟩
    exact ⟨s', ran, sound.rewriteRoot live now id nodes lastOffset roots length pos⟩
  · refine ⟨_, bind_ok (getRoot_ok entry), ?_⟩
    have counted : (s.setRootEntry r { root with numEntries := count root.numEntries }).roots.lookup r
        = some { root with numEntries := count root.numEntries } := by
      rw [lookup_setRootEntry, if_pos rfl]
    obtain ⟨s', ran, nodes, lastOffset, roots, length, pos⟩ := setRoot_ok p counted id
    have now : RootRepresents s { root with numEntries := count root.numEntries, ptr := p } g :=
      ⟨d, b, c, shallow, stored, rep, fits, same⟩
    refine ⟨s', ran, sound.rewriteRoot live now id nodes lastOffset (fun r' => ?_) length pos⟩
    rw [roots r', lookup_setRootEntry]
    split <;> rfl

theorem insertOrUpdate_cases {s : Triedb} {m : Versions} (sound : Sound s m) {r : RootId}
    {f : UInt64 → Option Bytes} (known : m r = some f) (key : UInt64) (data : Bytes)
    (doInsert : Bool) :
    (doInsert = true ∧ (f key).isSome = true ∧ ∃ e s',
      insertOrUpdate P r key data doInsert s = .error e s' ∧ e ≠ .assertion ∧ Sound s' m) ∨
    (¬ Storable P data ∧ ∃ s', insertOrUpdate P r key data doInsert s = .error .assertion s') ∨
    ((doInsert = true → f key = none) ∧ ∃ s', insertOrUpdate P r key data doInsert s = .ok () s' ∧
      Sound s' (Function.update m r (some (Function.update f key (some data))))) := by
  obtain ⟨root, entry, id, d, b, c, shallow, stored, rep, fits, same⟩ := sound.known r f known
  have enough : MAX_DEPTH < d + 14 := by
    simp only [MAX_DEPTH]
    omega
  obtain ⟨b₁, s₁, d₁, c₁, grown, grows, fresh₁, rep₁, shallow₁, fits₁, inside, kept⟩ :=
    growRoot_ok P key sound.fresh stored rep shallow enough fits
  have sound₁ := sound.extend grows fresh₁
  have lookup_eq : (Tree.branch c₁).lookup d₁ key.toNat = f key := by rw [kept, same]
  have outcome := updatePart_outcome P key data doInsert fresh₁ rep₁ shallow₁ fits₁ inside
  have call : insertOrUpdate P r key data doInsert s =
      (updatePart P d₁ b₁ key data doInsert >>= fun p => do
        if p.2.2 then modifyNumEntries r (· + 1)
        setRoot r p.2.1) s₁ := by
    unfold insertOrUpdate
    rw [bind_ok (getRoot_ok entry), bind_ok (getBranch_ok stored), rep.depth_eq, bind_ok grown,
      rep₁.depth_eq]
  generalize result : updatePart P d₁ b₁ key data doInsert s₁ = res at outcome
  cases outcome with
  | present insert found =>
      left
      rw [lookup_eq] at found
      exact ⟨insert, found, _, s₁, call.trans (bind_error result), Error.noConfusion, sound₁⟩
  | oversized s' big =>
      right; left
      exact ⟨big, s', call.trans (bind_error result)⟩
  | written b₂ p₂ s₂ small allowed written =>
      right; right
      have pos := rep₁.pos
      obtain ⟨e, rfl⟩ := Nat.exists_eq_add_of_le' pos
      have after : ∀ k : UInt64, Function.update f key (some data) k =
          (Tree.branch (put (e + 1) c₁ key.toNat data)).lookup (e + 1) k.toNat := by
        intro k
        rw [lookup_put fits₁ inside, kept, ← same, Function.update_apply]
        simp only [UInt64.toNat_inj]
      obtain ⟨⟨s₃, moved, sound₃⟩, s₄, counted, s₅, moved', sound₅⟩ :=
        repoint_ok (sound₁.extend written.grows written.fresh) known shallow₁ written.node
          written.rep (fits_put fits₁ inside) after (· + 1)
      refine ⟨fun insert => lookup_eq ▸ allowed insert, ?_⟩
      rw [call, bind_ok result]
      cases isNew : ((Tree.branch c₁).lookup (e + 1) key.toNat).isNone with
      | false => exact ⟨s₃, moved, sound₃⟩
      | true => exact ⟨s₅, (bind_ok counted).trans moved', sound₅⟩

theorem remove_cases {s : Triedb} {m : Versions} (sound : Sound s m) {r : RootId}
    {f : UInt64 → Option Bytes} (known : m r = some f) (key : UInt64) :
    (f key = none ∧ ∃ e, remove P r key s = .error e s ∧ e ≠ .assertion) ∨
    ((f key).isSome = true ∧ ∃ s', remove P r key s = .ok () s' ∧
      Sound s' (Function.update m r (some (Function.update f key none)))) := by
  obtain ⟨root, entry, id, d, b, c, shallow, stored, rep, fits, same⟩ := sound.known r f known
  have call : remove P r key s =
      if computeMaxKeyBits key > d * MAX_BRANCH_BITS then
        .error (.keyNotFound (keyMissingMessage r key)) s
      else (removePart P r d b key >>= fun p => do
        modifyNumEntries r (· - 1)
        setRoot r p.2) s := by
    unfold remove
    rw [bind_ok (show (get : Access Triedb) s = .ok s s from rfl)]
    simp only [entry]
    rw [bind_ok (getBranch_ok stored), rep.depth_eq]
    split <;> rfl
  by_cases high : computeMaxKeyBits key > d * MAX_BRANCH_BITS
  · left
    rw [if_pos high] at call
    refine ⟨?_, _, call, Error.noConfusion⟩
    rw [same]
    by_contra found
    obtain ⟨v, hv⟩ := Option.ne_none_iff_exists'.mp found
    have := Tree.key_div_of_mem_leaves fits (Tree.mem_leaves_of_lookup hv)
    exact absurd ((computeMaxKeyBits_le rep.pos).mpr this) (by omega)
  · rw [if_neg high] at call
    have outcome := removePart_outcome P r key sound.fresh rep shallow
    generalize result : removePart P r d b key s = res at outcome
    cases outcome with
    | missing e thrown absent =>
        left
        exact ⟨(same key).trans absent, e, call.trans (bind_error result), thrown⟩
    | removed b' p s' found removed =>
        right
        have after : ∀ k : UInt64, Function.update f key none k =
            (Tree.branch (erase d c key.toNat)).lookup d k.toNat := by
          intro k
          rw [lookup_erase, ← same, Function.update_apply]
          simp only [UInt64.toNat_inj]
        obtain ⟨-, s₄, counted, s₅, moved, sound₅⟩ :=
          repoint_ok (sound.extend removed.grows removed.fresh) known shallow removed.node
            removed.rep (fits_erase fits) after (· - 1)
        refine ⟨(same key).symm ▸ found, s₅, ?_, sound₅⟩
        rw [call, bind_ok result]
        exact (bind_ok counted).trans moved

end Operations

section Runs

variable (P : TriedbParams)

private theorem perform_map {α : Type} {x : Access α} {g : α → Reply} {s : Triedb} :
    (g <$> x) s = match x s with
      | .ok a s' => .ok (g a) s'
      | .error e s' => .error e s' := by
  simp only [Functor.map, EStateM.map]
  cases x s <;> rfl

theorem Sound.step {s : Triedb} {m : Versions} (sound : Sound s m) {op : Op}
    (atEnd : op = .newRoot → s.rootsPos = s.rootsEnd) :
    match Versioned.step P s op with
    | none => Excused P m op
    | some (reply, s') => ∃ m', Meets m op reply m' ∧ Sound s' m' := by
  cases op with
  | newRoot =>
      obtain ⟨s₁, root, ran, grows, sound₁, id, -, rep⟩ := newRoot_ok P sound
      have same : s₁.rootsPos = s₁.rootsEnd := by
        simp only [Triedb.rootsEnd, grows.rootsPos, grows.rootsFile]
        exact atEnd rfl
      rw [same] at ran id
      simp only [Versioned.step, perform, perform_map, ran]
      exact ⟨_, .newRoot sound₁.rootsEnd_unused, sound₁.addRoot id rep⟩
  | newRootFrom parent =>
      cases known : m parent with
      | none =>
          have ran : newRootFrom parent s = .error .assertion s :=
            bind_error (getRoot_error (sound.unknown parent known))
          simp only [Versioned.step, perform, perform_map, ran]
          exact known
      | some f =>
          obtain ⟨s', ran, sound'⟩ := newRootFrom_ok sound known
          simp only [Versioned.step, perform, perform_map, ran]
          exact ⟨_, .newRootFrom known sound.rootsEnd_unused, sound'⟩
  | insert r key data =>
      cases known : m r with
      | none =>
          have ran : insert P r key data s = .error .assertion s :=
            bind_error (getRoot_error (sound.unknown r known))
          simp only [Versioned.step, perform, perform_map, ran]
          exact .inl known
      | some f =>
          rcases insertOrUpdate_cases P sound known key data true with
            ⟨-, present, e, s', ran, thrown, sound'⟩ | ⟨big, s', ran⟩ | ⟨absent, s', ran, sound'⟩
          · simp only [Versioned.step, perform, perform_map, Store.insert, ran]
            cases e with
            | assertion => exact absurd rfl thrown
            | keyAlreadyExists msg => exact ⟨m, .insertPresent known present, sound'⟩
            | keyNotFound msg => exact ⟨m, .insertPresent known present, sound'⟩
          · simp only [Versioned.step, perform, perform_map, Store.insert, ran]
            exact .inr big
          · simp only [Versioned.step, perform, perform_map, Store.insert, ran]
            exact ⟨_, .insert known (absent rfl), sound'⟩
  | update r key data =>
      cases known : m r with
      | none =>
          have ran : update P r key data s = .error .assertion s :=
            bind_error (getRoot_error (sound.unknown r known))
          simp only [Versioned.step, perform, perform_map, ran]
          exact .inl known
      | some f =>
          rcases insertOrUpdate_cases P sound known key data false with
            ⟨impossible, _⟩ | ⟨big, s', ran⟩ | ⟨-, s', ran, sound'⟩
          · cases impossible
          · simp only [Versioned.step, perform, perform_map, Store.update, ran]
            exact .inr big
          · simp only [Versioned.step, perform, perform_map, Store.update, ran]
            exact ⟨_, .update known, sound'⟩
  | remove r key =>
      cases known : m r with
      | none =>
          have ran : remove P r key s = .error (.keyNotFound (keyMissingMessage r key)) s := by
            unfold remove
            rw [bind_ok (show (get : Access Triedb) s = .ok s s from rfl)]
            simp only [sound.unknown r known]
            rfl
          simp only [Versioned.step, perform, perform_map, ran]
          exact ⟨m, .removeAbsent (by simp [known]), sound⟩
      | some f =>
          rcases remove_cases P sound known key with ⟨absent, e, ran, thrown⟩ | ⟨present, s', ran, sound'⟩
          · simp only [Versioned.step, perform, perform_map, ran]
            have absent' : ∀ g, m r = some g → g key = none := by
              intro g here
              cases known.symm.trans here
              exact absent
            cases e with
            | assertion => exact absurd rfl thrown
            | keyAlreadyExists msg => exact ⟨m, .removeAbsent absent', sound⟩
            | keyNotFound msg => exact ⟨m, .removeAbsent absent', sound⟩
          · simp only [Versioned.step, perform, perform_map, ran]
            exact ⟨_, .remove known present, sound'⟩

theorem Sound.newRoot_collides {s : Triedb} {m : Versions} (sound : Sound s m)
    (behind : s.rootsPos ≠ s.rootsEnd) :
    ∃ r s', Versioned.step P s .newRoot = some (.root r, s') ∧ (m r).isSome = true := by
  obtain ⟨s₁, root, ran, grows, -, -, -, -⟩ := newRoot_ok P sound
  refine ⟨s₁.rootsPos, (writeRootAtEnd root s₁).setRootEntry s₁.rootsPos root, ?_, ?_⟩
  · simp only [Versioned.step, perform, perform_map, ran]
  · obtain ⟨i, le, here⟩ := sound.pos
    rw [sound.ids]
    refine ⟨i, lt_of_le_of_ne le ?_, by rw [grows.rootsPos, here]⟩
    rintro rfl
    exact behind here

theorem Sound.refines_iff {s : Triedb} {m : Versions} (sound : Sound s m) (ops : List Op) :
    RefinesVersions P s m ops ↔ NewRootsAtEnd P s ops := by
  induction ops generalizing s m with
  | nil => exact ⟨fun _ => trivial, fun _ => sound.answers⟩
  | cons op ops ih =>
      constructor
      · rintro ⟨-, refines⟩
        have atEnd : op = .newRoot → s.rootsPos = s.rootsEnd := by
          rintro rfl
          by_contra behind
          obtain ⟨r, s', ran, taken⟩ := sound.newRoot_collides P behind
          rw [ran] at refines
          obtain ⟨m', meets, -⟩ := refines
          cases meets with
          | newRoot unused => simp [unused] at taken
        refine ⟨atEnd, ?_⟩
        have stepped := sound.step P atEnd
        split at refines
        · trivial
        · rename_i reply s' ran
          rw [ran] at stepped
          obtain ⟨m', meets, rest⟩ := refines
          obtain ⟨m'', meets', sound'⟩ := stepped
          obtain rfl := meets.unique meets'
          exact (ih sound').mp rest
      · rintro ⟨atEnd, rest⟩
        refine ⟨sound.answers, ?_⟩
        have stepped := sound.step P atEnd
        split at rest
        · rename_i ran
          rwa [ran] at stepped
        · rename_i reply s' ran
          rw [ran] at stepped
          obtain ⟨m', meets, sound'⟩ := stepped
          exact ⟨m', meets, (ih sound').mpr rest⟩

/-- The runs of an empty database that refine the versioned map. -/
theorem versions_refined_iff (ops : List Op) :
    RefinesVersions P {} (fun _ => none) ops ↔ NewRootsAtEnd P {} ops :=
  sound_empty.refines_iff P ops

end Runs

section Collision

/-- Small buckets, no hashing. -/
def plainParams : TriedbParams where
  bucketSize := 4096
  bucketSize_pos := Nat.succ_pos 4095
  useHashing := false
  blake2b _ := List.replicate 32 0
  blake2b_length _ := List.length_replicate

/-- Two roots, an insert at the first one, and a third root. -/
def collidingRun : List Op := [.newRoot, .newRoot, .insert 20 7 [1], .newRoot]

theorem third_root_collides : ¬ RefinesVersions plainParams {} (fun _ => none) collidingRun := by
  rw [sound_empty.refines_iff]
  decide

end Collision

end Epilog.Db.Versioned
