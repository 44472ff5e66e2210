/- Module: Epilog/Db/Canonicity
   source: src/src/db/triedb.cpp (insert_or_update, update_part, branch_hasher)
   digest: Writes alone lead to one trie and one root hash for each map. -/

import Epilog.Db.Hashes

set_option autoImplicit false

namespace Epilog.Db.Canonicity

open Epilog.Lib.DigitTree Epilog.Lib.TreeShape Epilog.Db.Branch Epilog.Db.Store
open Epilog.Db.Representation Epilog.Db.PathUpdate Epilog.Db.Versioned
open Epilog.Db.Iterator Epilog.Db.Upkeep Epilog.Db.Hashes

variable {P : TriedbParams}

/-- The state after a run; a failed assertion ends it without one. -/
def runOps (P : TriedbParams) : Triedb → List Op → Option Triedb
  | s, [] => some s
  | s, op :: ops => (step P s op).bind fun after => runOps P after.2 ops

/-- New roots, inserts and updates -/
def isWrite : Op → Bool
  | .remove _ _ => false
  | _ => true

/-- The only shape that new roots and writes lead to -/
def Written (d : ℕ) (c : Children) : Prop := Canonical d c ∧ Minimal d c

theorem written_put {d d' : ℕ} {c c' : Children} {key : ℕ} {data : Bytes} (written : Written d c)
    (fits : (Tree.branch c).Fits d 0) (grown : Grown d c d' c') (inside : key / 32 ^ d' = 0)
    (last : d = d' ∨ key / 32 ^ (d' - 1) ≠ 0) : Written d' (put d' c' key data) := by
  obtain ⟨canonical, minimal⟩ := written
  have canonical' := grown.canonical canonical
  refine ⟨canonical_put canonical' (grown.fits fits) inside, ?_⟩
  have pos : 1 ≤ d' := by
    cases d' with
    | zero => exact canonical'.elim
    | succ d' => omega
  obtain ⟨e, rfl⟩ := Nat.exists_eq_add_of_le' pos
  have lookups := lookup_put (v := data) (grown.fits fits) inside
  rcases last with rfl | large
  · rcases minimal with one | ⟨k, high, found⟩
    · exact .inl one
    · refine .inr ⟨k, high, ?_⟩
      rw [lookups]
      split
      · rfl
      · rw [grown.lookup_eq fits]
        exact found
  · refine .inr ⟨key, ?_, ?_⟩
    · by_contra low
      exact large (Nat.div_eq_of_lt (not_le.mp low))
    · rw [lookups, if_pos rfl]
      rfl

theorem closed_written : Closed (hashUpkeep P) Written where
  nothing := trivial
  fresh := ⟨fun _ => trivial, .inl rfl⟩
  write := written_put

theorem kept_step {s s' : Triedb} {op : Op} {reply : Reply} (kept : Kept (hashUpkeep P) Written s)
    (writes : isWrite op = true) (ran : step P s op = some (reply, s')) :
    Kept (hashUpkeep P) Written s' := by
  refine kept.step closed_written (fun r key _ root d b c _ _ => quiet_hashes P d c key.toNat) ?_ ran
  rintro r key rfl
  cases writes

theorem kept_run {s s' : Triedb} {ops : List Op} (kept : Kept (hashUpkeep P) Written s)
    (writes : ∀ op ∈ ops, isWrite op = true) (ran : runOps P s ops = some s') :
    Kept (hashUpkeep P) Written s' := by
  induction ops generalizing s with
  | nil =>
    cases ran
    exact kept
  | cons op ops ih =>
    obtain ⟨⟨reply, s₁⟩, stepped, rest⟩ := Option.bind_eq_some_iff.mp ran
    exact ih (kept_step kept (writes op (by simp)) stepped) (fun op member => writes op (by simp [member]))
      rest

theorem key_lt_of_mem_leaves {s : Triedb} {d : ℕ} {b : TriedbBranch} {c : Children}
    (rep : Represents s d b c) {key : ℕ} {v : Bytes} (member : (key, v) ∈ (Tree.branch c).leaves) :
    key < 2 ^ 64 := by
  induction d generalizing b c with
  | zero => exact rep.elim
  | succ d ih =>
    obtain ⟨i, below⟩ := (Tree.mem_leaves_branch c _).mp member
    have slot := rep.2.2 i
    cases here : b.slot i with
    | empty =>
      rw [here] at slot
      have shape : c i = .empty := slot
      rw [shape] at below
      cases below
    | leaf p =>
      rw [here] at slot
      obtain ⟨l, -, shape⟩ := slot
      rw [shape, Tree.leaves_leaf, List.mem_singleton, Prod.mk.injEq] at below
      rw [below.1]
      exact l.key.toNat_lt
    | branch p =>
      rw [here] at slot
      obtain ⟨b', c', -, shape, rep'⟩ := slot
      rw [shape] at below
      exact ih rep' below

theorem lookup_eq_none_of_large {s : Triedb} {d : ℕ} {b : TriedbBranch} {c : Children}
    (rep : Represents s d b c) {key : ℕ} (large : 2 ^ 64 ≤ key) :
    (Tree.branch c).lookup d key = none := by
  by_contra found
  obtain ⟨v, hv⟩ := Option.ne_none_iff_exists'.mp found
  exact absurd (key_lt_of_mem_leaves rep (Tree.mem_leaves_of_lookup hv)) (not_lt.mpr large)

theorem represents_unique {s : Triedb} {d d' : ℕ} {b : TriedbBranch} {c c' : Children}
    (rep : Represents s d b c) (rep' : Represents s d' b c') : d = d' ∧ c = c' := by
  have depth : d = d' := rep.depth_eq.symm.trans rep'.depth_eq
  subst depth
  refine ⟨rfl, ?_⟩
  induction d generalizing b c c' with
  | zero => exact rep.elim
  | succ d ih =>
    funext i
    have slot := rep.2.2 i
    have slot' := rep'.2.2 i
    cases here : b.slot i with
    | empty =>
      rw [here] at slot slot'
      exact slot.trans slot'.symm
    | leaf p =>
      rw [here] at slot slot'
      obtain ⟨l, stored, shape⟩ := slot
      obtain ⟨l', stored', shape'⟩ := slot'
      cases stored.symm.trans stored'
      rw [shape, shape']
    | branch p =>
      rw [here] at slot slot'
      obtain ⟨b₁, c₁, stored, shape, below⟩ := slot
      obtain ⟨b₂, c₂, stored', shape', below'⟩ := slot'
      cases stored.symm.trans stored'
      rw [shape, shape', ih below below']

/-- Depth, shape and hash of the branch of a root, as two roots share them -/
def SameTrie (s s' : Triedb) (root root' : TriedbRoot) : Prop :=
  ∃ d c b b', s.nodes root.ptr = some (.branch b) ∧ s'.nodes root'.ptr = some (.branch b') ∧
    Represents s d b c ∧ Represents s' d b' c ∧ b.depth = b'.depth ∧ b.hash = b'.hash

/-- Two runs of writes, from an empty database each: roots with the same map have the same trie
and the same root hash. -/
theorem root_canonical (P : TriedbParams) (ops ops' : List Op)
    (writes : ∀ op ∈ ops, isWrite op = true) (writes' : ∀ op ∈ ops', isWrite op = true)
    {s s' : Triedb} (ran : runOps P {} ops = some s) (ran' : runOps P {} ops' = some s')
    {r r' : RootId} {root root' : TriedbRoot} (entry : s.roots.lookup r = some root)
    (entry' : s'.roots.lookup r' = some root') {f : UInt64 → Option Bytes}
    (map : RootRepresents s root f) (map' : RootRepresents s' root' f) :
    SameTrie s s' root root' := by
  obtain ⟨d, b, c, held⟩ := (kept_run kept_empty writes ran).roots r root entry
  obtain ⟨d', b', c', held'⟩ := (kept_run kept_empty writes' ran').roots r' root' entry'
  have reads : ∀ {s root d b c}, RootKept (hashUpkeep P) Written s root d b c →
      RootRepresents s root f → ∀ key : UInt64, (Tree.branch c).lookup d key.toNat = f key := by
    rintro s root d b c held ⟨d₁, b₁, c₁, -, stored, rep, -, same⟩ key
    cases held.stored.symm.trans stored
    obtain ⟨rfl, rfl⟩ := represents_unique held.ann.rep rep
    exact (same key).symm
  have lookups : ∀ key, (Tree.branch c).lookup d key = (Tree.branch c').lookup d' key := by
    intro key
    by_cases small : key < 2 ^ 64
    · have := (reads held map (UInt64.ofNat key)).trans (reads held' map' (UInt64.ofNat key)).symm
      rwa [UInt64.toNat_ofNat_of_lt' small] at this
    · rw [lookup_eq_none_of_large held.ann.rep (not_lt.mp small),
        lookup_eq_none_of_large held'.ann.rep (not_lt.mp small)]
  have depth : d = d' := held.shaped.2.depth_eq held'.shaped.2 held.ann.rep.pos held'.ann.rep.pos
    held.fits held'.fits lookups
  subst depth
  have children : c = c' := held.shaped.1.ext held'.shaped.1 held.fits held'.fits lookups
  subst children
  have hash : b.hash = b'.hash := Eq.trans held.noted (Eq.symm held'.noted)
  exact ⟨d, c, b, b', held.stored, held'.stored, held.ann.rep, held'.ann.rep,
    held.ann.rep.depth_eq.trans held'.ann.rep.depth_eq.symm, hash⟩

section Overwritten

/-- The map with the single entry 5. -/
def entryFive (key : UInt64) : Option Bytes := if key = 5 then some [1] else none

theorem entryFive_represented {s : Triedb} {root : TriedbRoot} {b : TriedbBranch} {l : TriedbLeaf}
    {p : ℕ} (stored : s.nodes root.ptr = some (.branch b)) (leaf : s.nodes p = some (.leaf l))
    (key : l.key = 5) (data : l.customData = [1]) (depth : b.depth = 1)
    (full : Lib.PackedSlots.rank b.mask.getLsbD 32 ≤ b.ptr.length)
    (slots : ∀ i, b.slot i = if i = 5 then .leaf p else .empty) :
    RootRepresents s root entryFive := by
  refine ⟨1, b, Function.update (fun _ => .empty) 5 (.leaf 5 [1]), by decide, stored,
    ⟨depth, full, fun i => ?_⟩, fun i => ?_, fun k => ?_⟩
  · rw [slots i, Function.update_apply]
    split
    · exact ⟨l, leaf, by rw [key, data]; rfl⟩
    · rfl
  · rw [Function.update_apply]
    split_ifs with here
    · subst here
      rfl
    · trivial
  · have := lookup_single (n := 32) 0 5 [(1 : UInt8)] k.toNat
    rw [show digit 32 0 5 = 5 from rfl] at this
    rw [this, entryFive]
    have same : k = 5 ↔ k.toNat = 5 := by rw [← UInt64.toNat_inj]; rfl
    simp only [same]

/-- The state after a run without hashing -/
def after (ops : List Op) : Triedb := (runOps plainParams {} ops).getD {}

/-- The record, the branch and the leaf of root 20 there -/
def rootAfter (ops : List Op) : TriedbRoot := ((after ops).roots.lookup 20).getD {}
def branchAfter (ops : List Op) : TriedbBranch :=
  (branchAt (after ops) (rootAfter ops).ptr).getD {}

def insertFive : List Op := [.newRoot, .insert 20 5 [1]]
def overwriteFive : List Op := [.newRoot, .update 20 5 [9], .update 20 5 [1]]

/-- An insert, and an update after another value, lead to the same trie. -/
theorem overwritten_canonical :
    SameTrie (after insertFive) (after overwriteFive) (rootAfter insertFive)
      (rootAfter overwriteFive) := by
  have ran : ∀ {ops}, (runOps plainParams {} ops).isSome = true →
      runOps plainParams {} ops = some (after ops) := fun done => by
    obtain ⟨s, ran⟩ := Option.isSome_iff_exists.mp done
    rw [after, ran]
    rfl
  have entry : ∀ {ops}, ((after ops).roots.lookup 20).isSome = true →
      (after ops).roots.lookup 20 = some (rootAfter ops) := fun done => by
    obtain ⟨root, here⟩ := Option.isSome_iff_exists.mp done
    rw [rootAfter, here]
    rfl
  refine root_canonical plainParams insertFive overwriteFive (by decide) (by decide)
    (ran (by decide)) (ran (by decide)) (entry (by decide))
    (entry (by decide)) (f := entryFive) ?_ ?_
  · exact entryFive_represented (b := branchAfter insertFive)
      (p := (branchAfter insertFive).getChildPointer 5)
      (l := { key := 5, customData := [1], hash := [] }) (by decide) (by decide)
      rfl rfl (by decide) (by decide) (by decide)
  · exact entryFive_represented (b := branchAfter overwriteFive)
      (p := (branchAfter overwriteFive).getChildPointer 5)
      (l := { key := 5, customData := [1], hash := [] }) (by decide) (by decide)
      rfl rfl (by decide) (by decide) (by decide)

end Overwritten

end Epilog.Db.Canonicity
