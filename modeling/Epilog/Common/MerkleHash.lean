/- Module: Epilog/Common/MerkleHash
   source: src/src/common/merkle_trie.hpp (recompute_hash, rehash_all)
   digest: The hash of the trie in memory is one for each map, however it is computed. -/

import Epilog.Common.MerkleIterator

set_option autoImplicit false

namespace Epilog.Common.MerkleHash

open Epilog.Lib.DigitTree Epilog.Lib.DigitTree.Tree Epilog.Lib.TreeShape Epilog.Lib.CompactTree
open Epilog.Common.Bits Epilog.Common.MerkleTrie Epilog.Common.MerkleMap
open Epilog.Common.MerkleIterator

variable {V : Type} {H : Hashing V} {rehash : Bool} {b : Branch V} {c c' : Children V}
  {t t' : MerkleTrieBase V}

section Canonical

theorem children_ext (represents : Represents H rehash t c) {rehash' : Bool}
    (represents' : Represents H rehash' t' c') (same : entries c = entries c') : c = c' := by
  funext i
  exact (represents.compact i).ext (represents'.compact i) (represents.fits i) (represents'.fits i)
    (lookup_child_ext represents.fits represents'.fits (congrFun same) i)

theorem hash_eq (represents : Represents H true t c) : t.hash = some (rootHash H c) := by
  rw [MerkleTrieBase.hash, represents.clean rfl]
  exact represents.hashed (.inl rfl)

end Canonical

section RehashAll

/-- The children at the positions of `l` are not yet signed, the others are. -/
def Pending (H : Hashing V) (l : List (Fin 32)) (b : Branch V) (c : Children V) : Prop :=
  b.Full ∧ ∀ i : Fin 32, Stands H (decide (i ∉ l)) (c i) (b.mask.getLsbD i.val)
    (b.leaf.getLsbD i.val) (b.entry i)

/-- What `rehash_all` does to one position -/
def rehashChild (H : Hashing V) (parts : ℕ) (b : Branch V) (i : Fin 32) : Option (Branch V) :=
  if b.isBranch i then do
    let child ← getBranch b i
    let child ← rehashAll H parts child
    some (b.setCell i (.branch child))
  else some b

theorem rehashAll_succ (H : Hashing V) (parts : ℕ) (nonzero : b.mask ≠ 0) :
    rehashAll H (parts + 1) b =
      (((List.finRange 32).filter fun i : Fin 32 => b.mask.getLsbD i.val).foldlM
        (rehashChild H parts) b).map (recomputeHash H) := by
  rw [rehashAll, if_neg nonzero, ← maskLoop_fin, List.foldlM_map]
  rw [Option.map_eq_bind]
  rfl

theorem pending_signed {l : List (Fin 32)} {i : Fin 32} (fresh : i ∉ l) {b' : Branch V}
    (pending : Pending H (i :: l) b c) (full : b'.Full) (mask : b'.mask = b.mask)
    (leaf : b'.leaf = b.leaf) (others : ∀ j ≠ i, b'.entry j = b.entry j)
    (stands : Stands H true (c i) (b.mask.getLsbD i.val) (b.leaf.getLsbD i.val) (b'.entry i)) :
    Pending H l b' c := by
  refine ⟨full, fun j => ?_⟩
  rw [mask, leaf]
  by_cases same : j = i
  · rw [same, decide_eq_true fresh]
    exact stands
  · have kept := pending.2 j
    rw [others j same]
    rwa [decide_eq_decide.2 (by simp [same] : j ∉ i :: l ↔ j ∉ l)] at kept

theorem rehash_children (parts : ℕ) {l : List (Fin 32)} (nodup : l.Nodup)
    (used : ∀ i ∈ l, b.mask.getLsbD i.val = true) (pending : Pending H l b c)
    (below : ∀ i c₁ child, c i = .branch c₁ → Holds H false child c₁ →
      ∃ child', rehashAll H parts child = some child' ∧ Holds H true child' c₁ ∧
        child'.hash = some (treeBytes H (.branch c₁))) :
    ∃ b', l.foldlM (rehashChild H parts) b = some b' ∧ Holds H true b' c := by
  induction l generalizing b with
  | nil => exact ⟨b, rfl, pending⟩
  | cons i l ih =>
    obtain ⟨fresh, nodup⟩ := List.nodup_cons.1 nodup
    have set := used i (by simp)
    have here := pending.2 i
    rw [decide_eq_false (by simp), set] at here
    -- What is left to do after a child was signed
    suffices first : ∃ b₁, rehashChild H parts b i = some b₁ ∧ b₁.mask = b.mask ∧
        Pending H l b₁ c by
      obtain ⟨b₁, ran, mask, pending₁⟩ := first
      obtain ⟨b', rest, holds⟩ := ih nodup
        (fun j member => mask ▸ used j (List.mem_cons_of_mem i member)) pending₁
      refine ⟨b', ?_, holds⟩
      rw [List.foldlM_cons, ran]
      exact rest
    rw [rehashChild, BranchOf.isBranch, isLeaf_eq]
    cases slot : c i with
    | empty =>
      rw [slot] at here
      exact absurd here.1 (by decide)
    | leaf k v =>
      rw [slot] at here
      obtain ⟨-, bit, l₁, cell, rest⟩ := here
      rw [bit]
      refine ⟨b, rfl, rfl, pending_signed fresh pending pending.1 rfl rfl (fun _ _ => rfl) ?_⟩
      rw [slot, set, bit]
      exact ⟨rfl, rfl, l₁, cell, rest⟩
    | branch c₁ =>
      rw [slot] at here
      obtain ⟨-, bit, child, cell, -, holds⟩ := here
      obtain ⟨child', ran, holds', signed⟩ := below i c₁ child slot holds
      have read : getBranch b i = some child := by
        rw [getBranch, cell_eq set, cell]
      rw [bit, read]
      refine ⟨b.setCell i (.branch child'), ?_, rfl, ?_⟩
      · change (rehashAll H parts child).bind _ = _
        rw [ran]
        rfl
      · refine pending_signed fresh pending (full_setCell pending.1) rfl rfl ?_ ?_
        · intro j other
          rw [entry_setCell pending.1 set, if_neg other]
        · rw [slot, set, bit, entry_setCell pending.1 set, if_pos rfl]
          exact stands_branch holds' fun _ => signed

theorem pending_all (holds : Holds H false b c) :
    Pending H ((List.finRange 32).filter fun i : Fin 32 => b.mask.getLsbD i.val) b c := by
  refine ⟨holds.1, fun i => ?_⟩
  have here := holds.2 i
  cases used : b.mask.getLsbD i.val with
  | true =>
    have member : i ∈ (List.finRange 32).filter fun i : Fin 32 => b.mask.getLsbD i.val := by
      simpa using used
    rw [used] at here
    rwa [decide_eq_false fun missing => missing member]
  | false =>
    have free := (holds.empty_iff i).2 used
    rw [free, used] at here
    rw [free]
    exact here

theorem rehashAll_holds {d q : ℕ} (holds : Holds H false b c) (compact : ∀ i, Compact (c i))
    (fits : (branch c).Fits d q) (occupied : ∃ i, c i ≠ .empty) :
    ∃ b', rehashAll H d b = some b' ∧ Holds H true b' c ∧
      b'.hash = some (treeBytes H (.branch c)) := by
  induction d generalizing q b c with
  | zero => exact fits.elim
  | succ d ih =>
    obtain ⟨o, some_left⟩ := occupied
    obtain ⟨b', ran, holds'⟩ := rehash_children d
      ((List.nodup_finRange 32).filter _) (by simp) (pending_all holds) (by
        intro i c₁ child slot below
        have compact₁ := compact i
        have fits₁ := fits i
        rw [slot] at compact₁ fits₁
        exact ih below compact₁.2 fits₁ (exists_occupied compact₁))
    refine ⟨recomputeHash H b', ?_, holds_recomputeHash holds', recomputeHash_eq holds'⟩
    rw [rehashAll_succ H d (mask_ne_zero holds some_left), ran]
    rfl

theorem rehashed_hash (represents : Represents H false t c) :
    ∃ t', t.rehashAll H = some t' ∧ t'.hash = some (rootHash H c) := by
  by_cases childless : ∀ i, c i = .empty
  · have zero : t.root.mask = 0 := by
      by_contra nonzero
      exact nearest_occupied Db.Walk.rightward represents.holds nonzero (fun _ set => set)
        (childless _)
    have still : rehashAll H PARTS t.root = some t.root := by
      rw [rehashAll.eq_def]
      exact if_pos zero
    refine ⟨{ t with dirty := false }, ?_, represents.hashed (.inr childless)⟩
    rw [MerkleTrieBase.rehashAll, still]
    rfl
  · push Not at childless
    obtain ⟨root, ran, -, signed⟩ :=
      rehashAll_holds represents.holds represents.compact represents.fits childless
    refine ⟨{ t with root, dirty := false }, ?_, ?_⟩
    · rw [MerkleTrieBase.rehashAll, ran]
      rfl
    · rw [rootHash_occupied childless]
      exact signed

end RehashAll

section Histories

/-- Every history of a map gives its hash, whether the hash is maintained by every operation or
computed at the end. -/
theorem history_independent (H : Hashing V) (ops ops' : List (Op V))
    (inside : ∀ op ∈ ops, op.key.toNat < 2 ^ 60) (inside' : ∀ op ∈ ops', op.key.toNat < 2 ^ 60)
    (same : contents ops = contents ops') : ∃ t t' s s' h,
      run H {} ops = some t ∧ run H {} ops' = some t' ∧
      run H (({} : MerkleTrieBase V).setAutoRehash false) ops = some s ∧ s.rehashAll H = some s' ∧
      t.hash = some h ∧ t'.hash = some h ∧ s'.hash = some h := by
  obtain ⟨t, c, ran, represents, left⟩ := run_new H true inside
  obtain ⟨t', c', ran', represents', left'⟩ := run_new H true inside'
  obtain ⟨s, e, unhashed, representsLate, late⟩ := run_new H false inside
  obtain ⟨s', rehashed, hash⟩ := rehashed_hash representsLate
  have equal : c' = c :=
    children_ext represents' represents (left'.trans (same.symm.trans left.symm))
  have equal' : e = c := children_ext representsLate represents (late.trans left.symm)
  refine ⟨t, t', s, s', rootHash H c, ran, ran', unhashed, rehashed, hash_eq represents, ?_, ?_⟩
  · rw [← equal]
    exact hash_eq represents'
  · rw [← equal']
    exact hash

/-- A digest that keeps what it is given, over values of one byte -/
def plainDigest : Hashing UInt8 := ⟨id, fun v => [v]⟩

/-- A key that is removed again, and two keys in either order -/
theorem detours_independent : ∃ t t' s s' h,
    run plainDigest {} [.insert 7 1, .insert 39 2, .remove 7] = some t ∧
    run plainDigest {} [.insert 39 2, .insert 39 3] = some t' ∧
    run plainDigest (({} : MerkleTrieBase UInt8).setAutoRehash false)
      [.insert 7 1, .insert 39 2, .remove 7] = some s ∧ s.rehashAll plainDigest = some s' ∧
    t.hash = some h ∧ t'.hash = some h ∧ s'.hash = some h := by
  refine history_independent plainDigest _ _ (by simp [Op.key]) (by simp [Op.key]) ?_
  funext k
  simp only [contents, List.foldl_cons, List.foldl_nil, effect, Function.update_apply]
  by_cases seven : k = 7
  · simp [seven]
  · by_cases more : k = 39 <;> simp [seven, more]

end Histories

end Epilog.Common.MerkleHash
