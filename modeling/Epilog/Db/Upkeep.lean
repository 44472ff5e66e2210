/- Module: Epilog/Db/Upkeep
   source: src/src/db/triedb.cpp (root operations)
   digest: Notes on the nodes below all roots, over runs of the root operations. -/

import Epilog.Db.Annotation
import Epilog.Db.Roots

set_option autoImplicit false

namespace Epilog.Db.Upkeep

open Epilog.Lib.DigitTree Epilog.Lib.TreeShape Epilog.Db.Branch Epilog.Db.Store
open Epilog.Db.Representation Epilog.Db.PathUpdate Epilog.Db.Versioned Epilog.Db.Annotation
open Epilog.Db.Roots (completed completed_map)

variable {P : TriedbParams} (A : Upkeep P) (shape : ℕ → Children → Prop)

/-- The branch of a root with all that is kept about it. The record of the root counts the keys. -/
structure RootKept (s : Triedb) (root : TriedbRoot) (d : ℕ) (b : TriedbBranch) (c : Children) :
    Prop where
  shallow : d ≤ MAX_DEPTH
  stored : s.nodes root.ptr = some (.branch b)
  ann : Annotated A.toNotes s d b c
  noted : A.branch d b c
  fits : (Tree.branch c).Fits d 0
  shaped : shape d c
  count : root.numEntries = UInt64.ofNat (size (.branch c))

/-- All roots are kept. Two roots may share an id here, so only the table is looked at; the id 0
is never given out. -/
structure Kept (s : Triedb) : Prop where
  fresh : Fresh s
  rootsPos_pos : 0 < s.rootsPos
  nonzero : ∀ r root, s.roots.lookup r = some root → r ≠ 0
  roots : ∀ r root, s.roots.lookup r = some root → ∃ d b c, RootKept A shape s root d b c

/-- Where the branches that a write makes are allowed to start counting from nothing. -/
structure Quiet (d : ℕ) (c : Children) (key : ℕ) : Prop where
  growing : key / 32 ^ d ≠ 0 → ∀ c' : Children, size (.branch c') = size (.branch c) → A.draft 0 c'
  splitting : key / 32 ^ d = 0 → Calm A d c key

variable {A shape}

theorem kept_empty : Kept A shape {} where
  fresh _ _ := rfl
  rootsPos_pos := by decide
  nonzero r root impossible := by cases impossible
  roots r root impossible := by cases impossible

theorem RootKept.mono {s s' : Triedb} {root root' : TriedbRoot} {d : ℕ} {b : TriedbBranch}
    {c : Children} (keep : ∀ p n, s.nodes p = some n → s'.nodes p = some n)
    (ptr : root'.ptr = root.ptr) (count : root'.numEntries = root.numEntries)
    (kept : RootKept A shape s root d b c) : RootKept A shape s' root' d b c :=
  { kept with
    stored := keep _ _ (ptr ▸ kept.stored)
    ann := kept.ann.mono keep
    count := count.trans kept.count }

theorem Kept.extend {s s' : Triedb} (kept : Kept A shape s) (grows : Extends s s')
    (fresh : Fresh s') : Kept A shape s' where
  fresh := fresh
  rootsPos_pos := grows.rootsPos ▸ kept.rootsPos_pos
  nonzero r root entry := by
    rw [grows.roots] at entry
    exact kept.nonzero r root entry
  roots r root entry := by
    rw [grows.roots] at entry
    obtain ⟨d, b, c, held⟩ := kept.roots r root entry
    exact ⟨d, b, c, held.mono grows.nodes rfl rfl⟩

theorem Kept.setEntry {s s' : Triedb} (kept : Kept A shape s) (r : RootId) {root : TriedbRoot}
    {d : ℕ} {b : TriedbBranch} {c : Children} (held : RootKept A shape s root d b c)
    (nonzero : r ≠ 0) (rootsPos_pos : 0 < s'.rootsPos) (nodes : s'.nodes = s.nodes) (lastOffset : s'.lastOffset = s.lastOffset)
    (lookup : ∀ q, s'.roots.lookup q = if q = r then some root else s.roots.lookup q) :
    Kept A shape s' where
  fresh p beyond := by
    rw [nodes]
    exact kept.fresh p (lastOffset ▸ beyond)
  rootsPos_pos := rootsPos_pos
  nonzero q root' entry := by
    rw [lookup] at entry
    split_ifs at entry with here
    · rw [here]
      exact nonzero
    · exact kept.nonzero q root' entry
  roots q root' entry := by
    have keep : ∀ p n, s.nodes p = some n → s'.nodes p = some n := fun p n stored => nodes ▸ stored
    rw [lookup] at entry
    split_ifs at entry with here
    · cases entry
      exact ⟨d, b, c, held.mono keep rfl rfl⟩
    · obtain ⟨d', b', c', held'⟩ := kept.roots q root' entry
      exact ⟨d', b', c', held'.mono keep rfl rfl⟩

section Operations

theorem newRoot_held {s s' : Triedb} {r : RootId} (fresh : Fresh s)
    (nothing : A.draft 0 fun _ => .empty) (shaped : shape 1 fun _ => .empty)
    (ran : newRoot P s = .ok r s') : ∃ s₁ root b, Extends s s₁ ∧ Fresh s₁ ∧ r = s.rootsPos ∧
      s' = (writeRootAtEnd root s₁).setRootEntry r root ∧
      RootKept A shape s₁ root 1 b fun _ => .empty := by
  have bare := annotated_fresh (N := A.toNotes) s (by decide : 0 + 1 < 256)
  obtain ⟨h, hashed⟩ := branchHasher_ok P bare.rep
  have grows := extends_appendNode P fresh
    (.branch ((({} : TriedbBranch).setDepth 1).setHash h))
    ((({} : TriedbBranch).setDepth 1).setHash h).serializationSize
  have unfolded : Store.newRoot P s = _ := bind_ok hashed
  rw [ran] at unfolded
  cases unfolded
  refine ⟨_, _, (({} : TriedbBranch).setDepth 1).setHash h, grows,
    fresh_appendNode P fresh _ (serializationSize_pos _), rfl, rfl, ?_⟩
  exact
    { shallow := by decide
      stored := nodes_appendNode P _ _ _
      ann := bare.setHash.mono grows.nodes
      noted := A.finished bare nothing hashed
      fits := fun i => trivial
      shaped := shaped
      count := by rw [size_childless]; rfl }

theorem Kept.newRoot {s s' : Triedb} {r : RootId} (kept : Kept A shape s)
    (nothing : A.draft 0 fun _ => .empty) (shaped : shape 1 fun _ => .empty)
    (ran : newRoot P s = .ok r s') : Kept A shape s' := by
  obtain ⟨s₁, root, b, grows, fresh, rfl, rfl, held⟩ := newRoot_held kept.fresh nothing shaped ran
  exact (kept.extend grows fresh).setEntry _ held kept.rootsPos_pos.ne'
    (Nat.add_pos_right _ (by decide)) rfl rfl fun q => lookup_setRootEntry _ _ _ q

theorem Kept.newRootFrom {s s' : Triedb} {parent r : RootId} (kept : Kept A shape s)
    (ran : newRootFrom parent s = .ok r s') : Kept A shape s' := by
  cases entry : s.roots.lookup parent with
  | none =>
    have failed : Store.newRootFrom parent s = .error .assertion s := bind_error (getRoot_error entry)
    rw [ran] at failed
    cases failed
  | some root =>
    have unfolded : Store.newRootFrom parent s = _ := bind_ok (getRoot_ok entry)
    rw [ran] at unfolded
    cases unfolded
    obtain ⟨d, b, c, held⟩ := kept.roots parent root entry
    have child : RootKept A shape s
        { id := s.rootsEnd, previousId := root.id, ptr := root.ptr, height := root.height + 1,
          numEntries := root.numEntries } d b c :=
      held.mono (fun _ _ stored => stored) (by rfl) (by rfl)
    have beyond : s.rootsEnd ≠ 0 := by simp [Triedb.rootsEnd, VERSION_SZ]
    exact kept.setEntry s.rootsEnd child beyond (Nat.add_pos_right _ (by decide)) rfl rfl
      fun q => lookup_setRootEntry _ _ _ q

theorem ofNat_succ (n : ℕ) : UInt64.ofNat (n + 1) = UInt64.ofNat n + 1 := by
  rw [UInt64.ofNat_add]
  rfl

theorem count_put {d : ℕ} {c : Children} {key : ℕ} (data : Bytes) {n : UInt64} (pos : 1 ≤ d)
    (fits : (Tree.branch c).Fits d 0) (below : key / 32 ^ d = 0)
    (count : n = UInt64.ofNat (size (.branch c))) :
    (if ((Tree.branch c).lookup d key).isNone then n + 1 else n) =
      UInt64.ofNat (size (.branch (put d c key data))) := by
  obtain ⟨d, rfl⟩ := Nat.exists_eq_add_of_le' pos
  rw [size_put fits below]
  split
  · rw [ofNat_succ, count]
  · exact count

theorem count_erase {d : ℕ} {c : Children} {key : ℕ} {n : UInt64}
    (found : ((Tree.branch c).lookup d key).isSome = true)
    (count : n = UInt64.ofNat (size (.branch c))) :
    n - 1 = UInt64.ofNat (size (.branch (erase d c key))) := by
  have := size_erase d key c
  rw [if_pos found] at this
  rw [count, ← this, ofNat_succ, UInt64.add_sub_cancel]

theorem Kept.write {s s' : Triedb} {r : RootId} {key : UInt64} {data : Bytes} {doInsert : Bool}
    (kept : Kept A shape s)
    (quiet : ∀ root d b c, s.roots.lookup r = some root → RootKept A shape s root d b c →
      Quiet A d c key.toNat)
    (closed : ∀ {d c d' c'}, shape d c → (Tree.branch c).Fits d 0 → Grown d c d' c' →
      key.toNat / 32 ^ d' = 0 → (d = d' ∨ key.toNat / 32 ^ (d' - 1) ≠ 0) →
      shape d' (put d' c' key.toNat data)) :
    (∀ e, insertOrUpdate P r key data doInsert s = .error e s' → e ≠ .assertion →
      Kept A shape s') ∧
    (insertOrUpdate P r key data doInsert s = .ok () s' → Kept A shape s') := by
  cases entry : s.roots.lookup r with
  | none =>
    have failed : insertOrUpdate P r key data doInsert s = .error .assertion s :=
      bind_error (getRoot_error entry)
    rw [failed]
    constructor
    · intro e thrown other
      cases thrown
      exact absurd rfl other
    · intro impossible
      cases impossible
  | some root =>
    obtain ⟨d, b, c, held⟩ := kept.roots r root entry
    have calm := quiet root d b c entry held
    have begun : Begun s := ⟨_, _, held.stored⟩
    have nonzero := kept.nonzero r root entry
    have enough : MAX_DEPTH < d + 14 := by
      simp only [MAX_DEPTH]
      omega
    obtain ⟨b₁, s₁, d₁, c₁, grew, grows, fresh₁, ann₁, noted₁, shallow₁, grown, inside, last⟩ :=
      growRoot_annotated A key kept.fresh held.stored held.ann held.noted held.shallow enough
        held.fits calm.growing
    have kept₁ := kept.extend grows fresh₁
    have fits₁ := grown.fits held.fits
    have entry₁ : s₁.roots.lookup r = some root := by rw [grows.roots, entry]
    have calm₁ : Calm A d₁ c₁ key.toNat := by
      intro splitting
      by_cases same : d = d₁
      · subst same
        cases grown with
        | refl => exact calm.splitting inside splitting
        | lift more => exact absurd more.le (by omega)
      · have less : d < d₁ := lt_of_le_of_ne grown.le same
        rw [grown.splits_eq_false less inside (last.resolve_left same)] at splitting
        cases splitting
    have call : insertOrUpdate P r key data doInsert s =
        (updatePart P d₁ b₁ key data doInsert >>= fun p => do
          if p.2.2 then modifyNumEntries r (· + 1)
          setRoot r p.2.1) s₁ := by
      unfold insertOrUpdate
      rw [bind_ok (getRoot_ok entry), bind_ok (getBranch_ok held.stored), held.ann.rep.depth_eq,
        bind_ok grew, ann₁.rep.depth_eq]
    have outcome := updatePart_outcome P key data doInsert fresh₁ ann₁.rep shallow₁ fits₁ inside
    cases result : updatePart P d₁ b₁ key data doInsert s₁ with
    | error e s₂ =>
      rw [call, bind_error result]
      rw [result] at outcome
      constructor
      · intro e' thrown other
        cases thrown
        cases outcome with
        | present insert found => exact kept₁
        | oversized _ big => exact absurd rfl other
      · intro impossible
        cases impossible
    | ok written s₂ =>
      obtain ⟨b₂, p₂, new⟩ := written
      obtain ⟨ann₂, noted₂⟩ := updatePart_annotated A fresh₁ (begun.extend grows) ann₁ (A.draft_of_noted noted₁) calm₁
        shallow₁ fits₁ inside result
      obtain ⟨stored, isNew⟩ := updatePart_stored fresh₁ ann₁.rep shallow₁ fits₁ inside result
      have kept₂ := kept₁.extend stored.grows stored.fresh
      have entry₂ : s₂.roots.lookup r = some root := by rw [stored.grows.roots, entry₁]
      have counted := count_put data ann₁.rep.pos fits₁ inside
        (held.count.trans (by rw [grown.size_eq]))
      have held₂ : ∀ root' : TriedbRoot, root'.ptr = p₂ →
          root'.numEntries = (if new then root.numEntries + 1 else root.numEntries) →
          RootKept A shape s₂ root' d₁ b₂ (put d₁ c₁ key.toNat data) := by
        intro root' ptr count
        exact
          { shallow := shallow₁
            stored := by rw [ptr]; exact stored.node
            ann := ann₂
            noted := noted₂
            fits := fits_put fits₁ inside
            shaped := closed held.shaped held.fits grown inside last
            count := by rw [count, isNew, counted] }
      rw [call, bind_ok result]
      cases new with
      | false =>
        have moved : setRoot r p₂ s₂ = _ := bind_ok (getRoot_ok entry₂)
        constructor
        · intro e thrown
          cases moved.symm.trans thrown
        · intro done
          cases moved.symm.trans done
          exact kept₂.setEntry r (held₂ { root with ptr := p₂ } rfl rfl) nonzero
            (Nat.add_pos_right _ (by decide)) rfl rfl fun q => lookup_setRootEntry _ _ _ q
      | true =>
        have counting : modifyNumEntries r (· + 1) s₂ = .ok ()
            (s₂.setRootEntry r { root with numEntries := root.numEntries + 1 }) :=
          bind_ok (getRoot_ok entry₂)
        have entry₃ : (s₂.setRootEntry r { root with numEntries := root.numEntries + 1 }).roots.lookup
            r = some { root with numEntries := root.numEntries + 1 } := by
          rw [lookup_setRootEntry, if_pos rfl]
        have moved : (do modifyNumEntries r (· + 1); setRoot r p₂) s₂ = _ :=
          (bind_ok counting).trans (bind_ok (getRoot_ok entry₃))
        constructor
        · intro e thrown
          cases moved.symm.trans thrown
        · intro done
          cases moved.symm.trans done
          refine kept₂.setEntry r
            (held₂ { root with numEntries := root.numEntries + 1, ptr := p₂ } rfl rfl) nonzero
            (Nat.add_pos_right _ (by decide)) rfl rfl ?_
          intro q
          refine (lookup_setRootEntry _ _ _ q).trans ?_
          split_ifs with here
          · rfl
          · exact (lookup_setRootEntry _ _ _ q).trans (if_neg here)

theorem Kept.remove {s : Triedb} (s' : Triedb) {r : RootId} {key : UInt64} (kept : Kept A shape s)
    (closed : ∀ {d c}, shape d c → shape d (erase d c key.toNat)) :
    (∀ e, remove P r key s = .error e s' → Kept A shape s') ∧
    (remove P r key s = .ok () s' → Kept A shape s') := by
  have first : (get : Access Triedb) s = .ok s s := rfl
  cases entry : s.roots.lookup r with
  | none =>
    have failed : Store.remove P r key s = .error (.keyNotFound (keyMissingMessage r key)) s := by
      unfold Store.remove
      rw [bind_ok first]
      simp only [entry]
      rfl
    rw [failed]
    constructor
    · intro e thrown
      cases thrown
      exact kept
    · intro impossible
      cases impossible
  | some root =>
    obtain ⟨d, b, c, held⟩ := kept.roots r root entry
    have call : Store.remove P r key s =
        if computeMaxKeyBits key > d * MAX_BRANCH_BITS then
          .error (.keyNotFound (keyMissingMessage r key)) s
        else (removePart P r d b key >>= fun p => do
          modifyNumEntries r (· - 1)
          setRoot r p.2) s := by
      unfold Store.remove
      rw [bind_ok first]
      simp only [entry]
      rw [bind_ok (getBranch_ok held.stored), held.ann.rep.depth_eq]
      split <;> rfl
    rw [call]
    split
    · constructor
      · intro e thrown
        cases thrown
        exact kept
      · intro impossible
        cases impossible
    · have outcome := removePart_outcome P r key kept.fresh held.ann.rep held.shallow
      cases result : removePart P r d b key s with
      | error e s₂ =>
        rw [bind_error result]
        rw [result] at outcome
        constructor
        · intro e' thrown
          cases thrown
          cases outcome with
          | missing _ other absent => exact kept
        · intro impossible
          cases impossible
      | ok removed s₂ =>
        obtain ⟨b₂, p₂⟩ := removed
        obtain ⟨ann₂, noted₂⟩ := removePart_annotated A kept.fresh held.ann
          (A.draft_of_noted held.noted) held.shallow result
        rw [result] at outcome
        cases outcome with
        | removed _ _ _ found stored =>
          have kept₂ := kept.extend stored.grows stored.fresh
          have entry₂ : s₂.roots.lookup r = some root := by rw [stored.grows.roots, entry]
          have held₂ : RootKept A shape s₂
              { root with numEntries := root.numEntries - 1, ptr := p₂ } d b₂
              (erase d c key.toNat) :=
            { shallow := held.shallow
              stored := stored.node
              ann := ann₂
              noted := noted₂
              fits := fits_erase held.fits
              shaped := closed held.shaped
              count := count_erase found held.count }
          have counting : modifyNumEntries r (· - 1) s₂ = .ok ()
              (s₂.setRootEntry r { root with numEntries := root.numEntries - 1 }) :=
            bind_ok (getRoot_ok entry₂)
          have entry₃ : (s₂.setRootEntry r { root with numEntries := root.numEntries - 1 }).roots.lookup
              r = some { root with numEntries := root.numEntries - 1 } := by
            rw [lookup_setRootEntry, if_pos rfl]
          have moved : (do modifyNumEntries r (· - 1); setRoot r p₂) s₂ = _ :=
            (bind_ok counting).trans (bind_ok (getRoot_ok entry₃))
          rw [bind_ok result]
          constructor
          · intro e thrown
            cases moved.symm.trans thrown
          · intro done
            cases moved.symm.trans done
            refine kept₂.setEntry r held₂ (kept.nonzero r root entry)
              (Nat.add_pos_right _ (by decide)) rfl rfl ?_
            intro q
            refine (lookup_setRootEntry _ _ _ q).trans ?_
            split_ifs with here
            · rfl
            · exact (lookup_setRootEntry _ _ _ q).trans (if_neg here)

end Operations

section Step

/-- What a step of a run must meet so that everything stays kept. -/
structure Closed (A : Upkeep P) (shape : ℕ → Children → Prop) : Prop where
  nothing : A.draft 0 fun _ => .empty
  fresh : shape 1 fun _ => .empty
  write : ∀ {d c d' c'} {key : ℕ} {data : Bytes}, shape d c → (Tree.branch c).Fits d 0 →
    Grown d c d' c' → key / 32 ^ d' = 0 → (d = d' ∨ key / 32 ^ (d' - 1) ≠ 0) →
    shape d' (put d' c' key data)

/-- The root and the key that an operation writes -/
def written : Op → Option (RootId × UInt64)
  | .insert r key _ => some (r, key)
  | .update r key _ => some (r, key)
  | _ => none

theorem Kept.step {s s' : Triedb} {op : Op} {reply : Reply} (kept : Kept A shape s)
    (closed : Closed A shape)
    (quiet : ∀ r key, written op = some (r, key) → ∀ root d b c, s.roots.lookup r = some root →
      RootKept A shape s root d b c → Quiet A d c key.toNat)
    (erased : ∀ r key, op = .remove r key → ∀ {d c}, shape d c → shape d (erase d c key.toNat))
    (ran : Versioned.step P s op = some (reply, s')) : Kept A shape s' := by
  have finish : ∀ x : Access Unit, completed x s = some (reply, s') →
      (∀ e, x s = .error e s' → e ≠ .assertion → Kept A shape s') ∧
        (x s = .ok () s' → Kept A shape s') → Kept A shape s' := by
    rintro x done ⟨failed, finished⟩
    unfold completed at done
    cases result : x s with
    | ok _ after =>
      rw [result] at done
      cases done
      exact finished result
    | error e after =>
      rw [result] at done
      cases e with
      | assertion => cases done
      | keyAlreadyExists msg =>
        cases done
        exact failed _ result nofun
      | keyNotFound msg =>
        cases done
        exact failed _ result nofun
  cases op with
  | newRoot =>
    simp only [Versioned.step, perform, Functor.map, EStateM.map] at ran
    cases result : Store.newRoot P s with
    | ok r after =>
      rw [result] at ran
      cases ran
      exact kept.newRoot closed.nothing closed.fresh result
    | error e after =>
      obtain ⟨s₁, root, -, -, created⟩ := Roots.newRoot_named P s
      cases created.symm.trans result
  | newRootFrom parent =>
    simp only [Versioned.step, perform, Functor.map, EStateM.map] at ran
    cases result : Store.newRootFrom parent s with
    | ok r after =>
      rw [result] at ran
      cases ran
      exact kept.newRootFrom result
    | error e after =>
      cases entry : s.roots.lookup parent with
      | none =>
        have failed : Store.newRootFrom parent s = .error .assertion s :=
          bind_error (getRoot_error entry)
        rw [failed] at ran
        cases ran
      | some root =>
        have created : Store.newRootFrom parent s = _ := bind_ok (getRoot_ok entry)
        cases created.symm.trans result
  | insert r key data =>
    exact finish _ ((completed_map _ s).symm.trans ran)
      (kept.write (quiet r key rfl) closed.write)
  | update r key data =>
    exact finish _ ((completed_map _ s).symm.trans ran)
      (kept.write (quiet r key rfl) closed.write)
  | remove r key =>
    obtain ⟨failed, finished⟩ := kept.remove s' (erased r key rfl)
    exact finish _ ((completed_map _ s).symm.trans ran) ⟨fun e thrown _ => failed e thrown, finished⟩

end Step

end Epilog.Db.Upkeep
