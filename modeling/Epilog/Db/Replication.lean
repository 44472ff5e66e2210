/- Module: Epilog/Db/Replication
   source: src/src/db/triedb.cpp (get, update), src/src/db/triedb.hpp (merkle_root::validate)
   digest: Parts that cover the key space rebuild the root they were taken from. -/

import Epilog.Db.Canonicity
import Epilog.Db.Extract
import Epilog.Db.Merge

set_option autoImplicit false

namespace Epilog.Db.Replication

open Epilog.Lib.DigitTree Epilog.Lib.TreeShape Epilog.Common.Bits Epilog.Db.Branch
open Epilog.Db.Store Epilog.Db.Representation Epilog.Db.PathUpdate Epilog.Db.Versioned
open Epilog.Db.Iterator Epilog.Db.Merkle Epilog.Db.Annotation Epilog.Db.Upkeep Epilog.Db.Hashes
open Epilog.Db.Canonicity Epilog.Db.Counts Epilog.Db.Extract Epilog.Db.Merge

abbrev Range := UInt64 × UInt64

section Cut

/-- The ranges that meet a span. -/
def meeting (keyOffset keyStep : UInt64) (ranges : List Range) : List Range :=
  ranges.filter fun range => rangesIntersect keyOffset keyStep range.1 range.2

/-- What is left of a tree when only the ranges have been sent. -/
def cut : List Range → ℕ → Tree 32 Bytes → UInt64 → UInt64 → Tree 32 Bytes
  | [], _, _, _, _ => .empty
  | _, _, .empty, _, _ => .empty
  | _, _, .leaf key data, _, _ => .leaf key data
  | _, 0, .branch _, _, _ => .empty
  | range :: ranges, d + 1, .branch c, keyOffset, keyStep =>
      .branch fun i => cut (meeting keyOffset keyStep (range :: ranges)) d (c i)
        (keyOffset + UInt64.ofNat i.val * (keyStep >>> 5)) (keyStep >>> 5)

/-- What is left below the root, which is there from the start. -/
def cutRoot (ranges : List Range) : ℕ → Children → UInt64 → Children
  | 0, _, _ => fun _ => .empty
  | d + 1, c, keyStep => fun i => cut (meeting 0 keyStep ranges) d (c i)
      ((0 : UInt64) + UInt64.ofNat i.val * (keyStep >>> 5)) (keyStep >>> 5)

variable {P : TriedbParams} {d q : ℕ} {c : Children} {keyOffset keyStep : UInt64}
  {ranges : List Range}

theorem cut_nil (d : ℕ) (t : Tree 32 Bytes) (keyOffset keyStep : UInt64) :
    cut [] d t keyOffset keyStep = .empty := by
  unfold cut
  rfl

theorem cut_empty (ranges : List Range) (d : ℕ) (keyOffset keyStep : UInt64) :
    cut ranges d .empty keyOffset keyStep = .empty := by
  cases ranges <;> cases d <;> rfl

theorem childAt_cut (i : Fin 32) :
    childAt (cut ranges (d + 1) (.branch c) keyOffset keyStep) i =
      cut (meeting keyOffset keyStep ranges) d (c i)
        (keyOffset + UInt64.ofNat i.val * (keyStep >>> 5)) (keyStep >>> 5) := by
  cases ranges with
  | nil =>
    rw [cut_nil, meeting, List.filter_nil, cut_nil]
    rfl
  | cons range ranges => rfl

theorem meeting_cons (range : Range) :
    meeting keyOffset keyStep (range :: ranges) =
      if rangesIntersect keyOffset keyStep range.1 range.2 then
        range :: meeting keyOffset keyStep ranges
      else meeting keyOffset keyStep ranges := by
  unfold meeting
  rw [List.filter_cons]

theorem merged_null (t : Tree 32 Bytes) : merged .null t = t := rfl

theorem merged_branch (ranges : List Range) (range : Range) {t : Tree 32 Bytes}
    (old : ∀ i, childAt t i = cut (meeting keyOffset keyStep ranges) d (c i)
      (keyOffset + UInt64.ofNat i.val * (keyStep >>> 5)) (keyStep >>> 5))
    (each : ∀ i ranges keyOffset keyStep, merged (partOf P range.1 range.2 d (c i) keyOffset keyStep)
      (cut ranges d (c i) keyOffset keyStep) = cut (range :: ranges) d (c i) keyOffset keyStep) :
    merged (partOf P range.1 range.2 (d + 1) (.branch c) keyOffset keyStep) t =
      .branch fun i => cut (meeting keyOffset keyStep (range :: ranges)) d (c i)
        (keyOffset + UInt64.ofNat i.val * (keyStep >>> 5)) (keyStep >>> 5) := by
  rw [meeting_cons]
  unfold partOf
  split
  · simp only [merged, old, each]
  · simp only [merged, old]

theorem merged_partOf (range : Range) {t : Tree 32 Bytes} (fits : t.Fits d q)
    (keys : ∀ k v, (k, v) ∈ t.leaves → k < 2 ^ 64) :
    merged (partOf P range.1 range.2 d t keyOffset keyStep) (cut ranges d t keyOffset keyStep) =
      cut (range :: ranges) d t keyOffset keyStep := by
  induction t generalizing d q ranges keyOffset keyStep with
  | empty => rw [partOf_empty, cut_empty, cut_empty, merged_null]
  | leaf key data =>
    rw [partOf_leaf, merged, UInt64.toNat_ofNat_of_lt' (keys key data (by simp))]
    cases d <;> rfl
  | branch c ih =>
    cases d with
    | zero => exact fits.elim
    | succ d =>
      apply merged_branch _ range childAt_cut
      intro i ranges keyOffset keyStep
      exact ih i (fits i) fun k v member => keys k v ((Tree.mem_leaves_branch c _).mpr ⟨i, member⟩)

theorem mergeable_branch (range : Range) {t : Tree 32 Bytes} (shallow : d + 1 < 256)
    (fits : (Tree.branch c).Fits (d + 1) q) (shape : t = .empty ∨ ∃ c', t = .branch c')
    (old : ∀ i, childAt t i = cut (meeting keyOffset keyStep ranges) d (c i)
      (keyOffset + UInt64.ofNat i.val * (keyStep >>> 5)) (keyStep >>> 5))
    (each : ∀ i ranges keyOffset keyStep, Mergeable (partOf P range.1 range.2 d (c i) keyOffset keyStep)
      d (q * 32 + i.val) (cut ranges d (c i) keyOffset keyStep)) :
    Mergeable (partOf P range.1 range.2 (d + 1) (.branch c) keyOffset keyStep) (d + 1) q t := by
  have depth : (UInt8.ofNat (d + 1)).toNat = d + 1 := by
    rw [UInt8.toNat_ofNat', Nat.mod_eq_of_lt shallow]
  unfold partOf
  split
  · refine ⟨depth, Nat.succ_pos d, shape, ?_, ?_⟩
    · intro i
      rw [getLsbD_maskOf, isNull_partOf (fits i)]
    · intro i
      rw [old]
      exact each i _ _ _
  · refine ⟨depth, Nat.succ_pos d, shape, ?_, fun _ => trivial⟩
    intro i
    simp [MerkleNode.isNull]

theorem mergeable_partOf (range : Range) {t : Tree 32 Bytes} (shallow : d < 256)
    (fits : t.Fits d q) (keys : ∀ k v, (k, v) ∈ t.leaves → k < 2 ^ 64) :
    Mergeable (partOf P range.1 range.2 d t keyOffset keyStep) d q
      (cut ranges d t keyOffset keyStep) := by
  induction t generalizing d q ranges keyOffset keyStep with
  | empty =>
    rw [partOf_empty]
    trivial
  | leaf key data =>
    rw [partOf_leaf]
    refine ⟨rfl, ?_, ?_⟩
    · rw [UInt64.toNat_ofNat_of_lt' (keys key data (by simp))]
      exact fits
    · cases ranges with
      | nil => exact .inl (cut_nil _ _ _ _)
      | cons range ranges => exact .inr ⟨key, data, by cases d <;> rfl⟩
  | branch c ih =>
    cases d with
    | zero => exact fits.elim
    | succ d =>
      have shape : cut ranges (d + 1) (.branch c) keyOffset keyStep = .empty ∨
          ∃ c', cut ranges (d + 1) (.branch c) keyOffset keyStep = .branch c' := by
        cases ranges with
        | nil => exact .inl (cut_nil _ _ _ _)
        | cons range ranges => exact .inr ⟨_, rfl⟩
      apply mergeable_branch range shallow fits shape childAt_cut
      intro i ranges keyOffset keyStep
      exact ih i (by omega) (fits i)
        fun k v member => keys k v ((Tree.mem_leaves_branch c _).mpr ⟨i, member⟩)

/-- Every key between the two is in one of the ranges. -/
def Covers (ranges : List Range) (first last : UInt64) : Prop :=
  ∀ key, first ≤ key → key ≤ last → ∃ range ∈ ranges, range.1 ≤ key ∧ key ≤ range.2

theorem Covers.meeting {first last : UInt64} (covers : Covers ranges first last)
    (lower : keyOffset ≤ first) (upper : last ≤ keyEnd keyOffset keyStep) :
    Covers (meeting keyOffset keyStep ranges) first last := by
  intro key above below
  obtain ⟨range, member, first_le, le_last⟩ := covers key above below
  refine ⟨range, List.mem_filter.mpr ⟨member, ?_⟩, first_le, le_last⟩
  simp only [rangesIntersect, ge_iff_le, Bool.and_eq_true, decide_eq_true_eq]
  constructor
  · exact UInt64.le_trans lower (UInt64.le_trans above le_last)
  · exact UInt64.le_trans first_le (UInt64.le_trans below upper)

theorem Covers.narrow {first first' last last' : UInt64} (covers : Covers ranges first last)
    (lower : first ≤ first') (upper : last' ≤ last) : Covers ranges first' last' :=
  fun key above below => covers key (UInt64.le_trans lower above) (UInt64.le_trans below upper)

theorem cut_of_covers {t : Tree 32 Bytes} (fits : t.Fits d q) (span : Span keyOffset keyStep d q)
    (covers : Covers ranges keyOffset (keyEnd keyOffset keyStep)) :
    cut ranges d t keyOffset keyStep = t := by
  induction t generalizing d q ranges keyOffset keyStep with
  | empty => exact cut_empty _ _ _ _
  | leaf key data =>
    obtain ⟨range, member, -⟩ := covers keyOffset (UInt64.le_refl _) (Span.le_keyEnd span)
    cases ranges with
    | nil => cases member
    | cons range ranges => cases d <;> rfl
  | branch c ih =>
    cases d with
    | zero => exact fits.elim
    | succ d =>
      obtain ⟨range, member, -⟩ := covers keyOffset (UInt64.le_refl _) (Span.le_keyEnd span)
      cases ranges with
      | nil => cases member
      | cons range ranges =>
        rw [cut]
        congr 1
        funext i
        obtain ⟨lower, upper⟩ := Span.sub_le span i
        exact ih i (fits i) (span.sub i) ((covers.narrow lower upper).meeting lower upper)

theorem meeting_wrapped (ranges : List Range) : meeting 0 0 ranges = ranges := by
  apply List.filter_eq_self.mpr
  intro range _
  have last : keyEnd 0 0 = 18446744073709551615 := by decide
  have first := range.2.toNat_lt
  have second := range.1.toNat_lt
  simp only [rangesIntersect, last, ge_iff_le, Bool.and_eq_true, decide_eq_true_eq,
    UInt64.le_iff_toNat_le]
  constructor
  · exact Nat.zero_le _
  · rw [show UInt64.toNat 18446744073709551615 = 2 ^ 64 - 1 from rfl]
    omega

theorem cut_wrapped {t : Tree 32 Bytes} (fits : t.Fits d q) (some_range : ranges ≠ []) :
    cut ranges d t 0 0 = t := by
  induction t generalizing d q with
  | empty => exact cut_empty _ _ _ _
  | leaf key data =>
    cases ranges with
    | nil => exact absurd rfl some_range
    | cons range ranges => cases d <;> rfl
  | branch c ih =>
    cases d with
    | zero => exact fits.elim
    | succ d =>
      cases ranges with
      | nil => exact absurd rfl some_range
      | cons range ranges =>
        have zero : (0 : UInt64) >>> 5 = 0 := by decide
        rw [cut, meeting_wrapped]
        congr 1
        funext i
        rw [zero, UInt64.mul_zero, UInt64.add_zero]
        exact ih i (fits i)

theorem cutRoot_nil (d : ℕ) (c : Children) (keyStep : UInt64) :
    cutRoot [] d c keyStep = fun _ => .empty := by
  cases d with
  | zero => rfl
  | succ d =>
    funext i
    simp only [cutRoot, meeting, List.filter_nil, cut_nil]

/-- Every 64-bit key is in one of the ranges. -/
def Covering (ranges : List Range) : Prop := ∀ key, ∃ range ∈ ranges, range.1 ≤ key ∧ key ≤ range.2

theorem cutRoot_of_covering {mr : MerkleRoot} (shallow : d ≤ MAX_DEPTH)
    (depth : mr.depth = UInt8.ofNat d) (fits : (Tree.branch c).Fits d 0)
    (covering : Covering ranges) : cutRoot ranges d c mr.keyStep = c := by
  have depth_eq : mr.depth.toNat = d := by
    rw [depth, UInt8.toNat_ofNat', Nat.mod_eq_of_lt]
    simp only [MAX_DEPTH] at shallow
    omega
  cases d with
  | zero => exact fits.elim
  | succ d =>
    funext i
    by_cases low : d + 1 ≤ 12
    · have span := span_root (show mr.depth.toNat ≤ 12 by omega)
      rw [depth_eq] at span
      obtain ⟨lower, upper⟩ := Span.sub_le span i
      refine cut_of_covers (fits i) (span.sub i) (Covers.meeting ?_ lower upper)
      intro key _ _
      exact covering key
    · have deep : d = 12 := by
        simp only [MAX_DEPTH] at shallow
        omega
      subst deep
      have step : mr.keyStep = 2 := by
        rw [MerkleRoot.keyStep, depth]
        decide
      have none : (2 : UInt64) >>> 5 = 0 := by decide
      have last : keyEnd 0 2 = 1 := by decide
      simp only [cutRoot, step, none, UInt64.mul_zero, UInt64.add_zero]
      apply cut_wrapped (fits i)
      obtain ⟨range, member, first_le, -⟩ := covering 0
      apply List.ne_nil_of_mem (a := range)
      apply List.mem_filter.mpr
      refine ⟨member, ?_⟩
      simp only [rangesIntersect, last, ge_iff_le, Bool.and_eq_true, decide_eq_true_eq]
      constructor
      · rw [UInt64.le_iff_toNat_le]
        exact Nat.zero_le _
      · exact UInt64.le_trans first_le (by decide)

end Cut

section Sizes

/-- The leaf that a part brings for a key. -/
def sentLeaf (P : TriedbParams) (key : ℕ) (data : Bytes) : TriedbLeaf where
  key := UInt64.ofNat key
  customData := data
  hash := storedHash P 0 (.leaf key data)

variable {P : TriedbParams} {s : Triedb} {d : ℕ} {b : TriedbBranch} {c : Children}

theorem size_of_mem_leaves (ann : Annotated (hashNotes P) s d b c) {key : ℕ} {data : Bytes}
    (member : (key, data) ∈ (Tree.branch c).leaves) :
    leafSerializationSize (sentLeaf P key data) < LEAF_MAX_SIZE_IN_BYTES := by
  induction d generalizing b c with
  | zero => exact ann.elim
  | succ d ih =>
    obtain ⟨i, below⟩ := (Tree.mem_leaves_branch c _).mp member
    have slot := ann.2.2 i
    cases here : b.slot i with
    | empty =>
      rw [here] at slot
      have shape : c i = .empty := slot
      rw [shape] at below
      cases below
    | leaf p =>
      rw [here] at slot
      obtain ⟨l, -, shape, hash, small⟩ := slot
      rw [shape, Tree.leaves_leaf, List.mem_singleton, Prod.mk.injEq] at below
      rw [below.1, below.2, sentLeaf, UInt64.ofNat_toNat, ← hash]
      exact small
    | branch p =>
      rw [here] at slot
      obtain ⟨b', c', -, shape, -, ann'⟩ := slot
      rw [shape] at below
      exact ih ann' below

theorem fitting_partOf {fromKey toKey : UInt64} {t : Tree 32 Bytes} {q : ℕ} (fits : t.Fits d q)
    (small : ∀ k v, (k, v) ∈ t.leaves →
      leafSerializationSize (sentLeaf P k v) < LEAF_MAX_SIZE_IN_BYTES)
    (keyOffset keyStep : UInt64) :
    Fitting (partOf P fromKey toKey d t keyOffset keyStep) := by
  induction t generalizing d q keyOffset keyStep with
  | empty =>
    rw [partOf_empty]
    trivial
  | leaf key data =>
    rw [partOf_leaf]
    exact small key data (by simp)
  | branch c ih =>
    cases d with
    | zero => exact fits.elim
    | succ d =>
      unfold partOf
      split
      · intro i
        exact ih i (fits i) (fun k v member =>
          small k v ((Tree.mem_leaves_branch c _).mpr ⟨i, member⟩)) _ _
      · intro i
        trivial

end Sizes

section Replicas

variable {P P' : TriedbParams}

/-- Take the part for each range from a root and merge it into a root of another database. -/
def applyRanges (P' : TriedbParams) (s : Triedb) (r r' : RootId) : List Range → Triedb → Option Triedb
  | [], s' => some s'
  | range :: rest, s' => do
      let (part, _, _) ← get s range.1 range.2 true {} r
      match updateRoot P' r' part s' with
      | .ok _ s' => applyRanges P' s r r' rest s'
      | .error _ _ => none

/-- What a root has received after the parts for these ranges. -/
structure Received (P' : TriedbParams) (s' : Triedb) (r' : RootId) (ranges : List Range) (d : ℕ) (b : TriedbBranch)
    (c : Children) (keyStep : UInt64) (root' : TriedbRoot) (d' : ℕ) (b' : TriedbBranch) : Prop where
  fresh : Fresh s'
  entry : s'.roots.lookup r' = some root'
  held : RootKept (countUpkeep (P := P')) AnyShape s' root' d' b' (cutRoot ranges d c keyStep)
  copied : ranges ≠ [] → d' = d ∧ b'.hash = b.hash

variable {s s' : Triedb} {r r' : RootId} {root root' : TriedbRoot} {d d' : ℕ}
  {b b' : TriedbBranch} {c : Children} {ranges : List Range} {keyStep : UInt64}

theorem Received.step (entry : s.roots.lookup r = some root)
    (held : RootKept (hashUpkeep P) AnyShape s root d b c)
    (keyStep_eq : keyStep = 1 <<< ((UInt8.ofNat d).toUInt64 * 5))
    (received : Received P' s' r' ranges d b c keyStep root' d' b') (range : Range) :
    ∃ part size s'' root'' d'' b'', get s range.1 range.2 true {} r = some (part, true, size) ∧
      updateRoot P' r' part s' = .ok () s'' ∧
      Received P' s'' r' (range :: ranges) d b c keyStep root'' d'' b'' := by
  obtain ⟨part, size, ran, depth, hash, node⟩ :=
    get_eq range.1 range.2 entry held
  have step : part.keyStep = keyStep := by rw [keyStep_eq, MerkleRoot.keyStep, depth]
  have keys : ∀ k v, (k, v) ∈ (Tree.branch c).leaves → k < 2 ^ 64 := fun _ _ member =>
    key_lt_of_mem_leaves held.ann.rep member
  have shallow := held.shallow
  have depth_eq : part.depth.toNat = d := by
    rw [depth, UInt8.toNat_ofNat', Nat.mod_eq_of_lt]
    simp only [MAX_DEPTH] at shallow
    omega
  rw [step] at node
  obtain ⟨e, rfl⟩ := Nat.exists_eq_add_of_le' held.ann.rep.pos
  have below : ∀ i k v, (k, v) ∈ (c i).leaves → k < 2 ^ 64 := fun i k v member =>
    keys k v ((Tree.mem_leaves_branch c _).mpr ⟨i, member⟩)
  have accepts : Accepts d' (cutRoot ranges (e + 1) c keyStep) part := by
    refine ⟨?_, by rw [depth_eq]; exact shallow, ?_⟩
    · cases ranges with
      | nil => exact .inr fun i => by rw [cutRoot_nil]
      | cons first rest => exact .inl (depth_eq.trans (received.copied (by simp)).1.symm)
    · rw [node, depth_eq]
      apply mergeable_branch range (by simp only [MAX_DEPTH] at shallow; omega) held.fits
        (.inr ⟨_, rfl⟩) fun _ => rfl
      intro i ranges keyOffset keyStep
      exact mergeable_partOf range (by simp only [MAX_DEPTH] at shallow; omega) (held.fits i) (below i)
  have fitting : Fitting part.node := by
    rw [node]
    exact fitting_partOf held.fits (fun _ _ member => size_of_mem_leaves held.ann member) _ _
  obtain ⟨s'', root'', b'', c'', updated, after⟩ :=
    (updateRoot_outcome received.fresh received.entry received.held accepts).1 fitting
  have shape : c'' = cutRoot (range :: ranges) (e + 1) c keyStep := by
    have merges := after.shape
    rw [node, merged_branch ranges range (fun _ => rfl)] at merges
    · exact (Tree.branch.inj merges).symm
    · intro i ranges keyOffset keyStep
      exact merged_partOf range (held.fits i) (below i)
  refine ⟨part, size, s'', root'', e + 1, b'', ran, updated, after.fresh,
    (after.lookup r').trans (if_pos rfl), ?_, fun _ => ⟨rfl, after.hash.trans hash⟩⟩
  rw [← shape, ← depth_eq]
  exact after.held

theorem Received.run (entry : s.roots.lookup r = some root)
    (held : RootKept (hashUpkeep P) AnyShape s root d b c)
    (keyStep_eq : keyStep = 1 <<< ((UInt8.ofNat d).toUInt64 * 5)) (todo : List Range)
    (received : Received P' s' r' ranges d b c keyStep root' d' b') :
    ∃ s'' root'' d'' b'', applyRanges P' s r r' todo s' = some s'' ∧
      Received P' s'' r' (todo.reverse ++ ranges) d b c keyStep root'' d'' b'' := by
  induction todo generalizing s' root' d' b' ranges with
  | nil => exact ⟨s', root', d', b', rfl, received⟩
  | cons range todo ih =>
    obtain ⟨part, size, s₁, root₁, d₁, b₁, ran, updated, received₁⟩ :=
      received.step entry held keyStep_eq range
    obtain ⟨s₂, root₂, d₂, b₂, applied, received₂⟩ := ih received₁
    refine ⟨s₂, root₂, d₂, b₂, ?_, ?_⟩
    · unfold applyRanges
      simp only [ran, updated, applied, Option.bind_eq_bind, Option.bind_some]
    · rw [List.reverse_cons, List.append_assoc]
      exact received₂

theorem closed_hashes : Closed (hashUpkeep P) AnyShape where
  nothing := trivial
  fresh := trivial
  write _ _ _ _ _ := trivial

theorem kept_hashes_run {ops : List Op} (kept : Kept (hashUpkeep P) AnyShape s)
    (ran : runOps P s ops = some s') : Kept (hashUpkeep P) AnyShape s' := by
  induction ops generalizing s with
  | nil =>
    cases ran
    exact kept
  | cons op ops ih =>
    obtain ⟨⟨reply, s₁⟩, stepped, rest⟩ := Option.bind_eq_some_iff.mp ran
    refine ih (kept.step closed_hashes ?_ ?_ stepped) rest
    · exact fun r key _ root d b c _ _ => quiet_hashes P d c key.toNat
    · exact fun r key _ d c _ => trivial

/-- What `find` answers with enough fuel. -/
def Finds (s : Triedb) (r : RootId) (key : UInt64) (data : Option Bytes) : Prop :=
  ∃ found : Option TriedbLeaf, (∃ n, ∀ fuel ≥ n, find s fuel r key = some found) ∧
    (∀ l ∈ found, l.key = key) ∧ found.map (·.customData) = data

/-- The root finds what the other one finds, with the same root hash and the same count. -/
structure Replica (s s' : Triedb) (r r' : RootId) (root root' : TriedbRoot) : Prop where
  finds : ∀ key, ∃ data, Finds s r key data ∧ Finds s' r' key data
  hash : ∃ b b', s.nodes root.ptr = some (.branch b) ∧ s'.nodes root'.ptr = some (.branch b') ∧
    b'.hash = b.hash
  numEntries : root'.numEntries = root.numEntries

theorem Received.replica (mr : MerkleRoot) (kept : Kept (hashUpkeep P) AnyShape s)
    (entry : s.roots.lookup r = some root) (held : RootKept (hashUpkeep P) AnyShape s root d b c)
    (depth : mr.depth = UInt8.ofNat d) (nonzero : r' ≠ 0) (covering : Covering ranges)
    (received : Received P' s' r' ranges d b c mr.keyStep root' d' b') :
    Replica s s' r r' root root' := by
  have some_range : ranges ≠ [] := by
    obtain ⟨range, member, -⟩ := covering 0
    exact List.ne_nil_of_mem member
  obtain ⟨rfl, hash⟩ := received.copied some_range
  have held' := received.held
  rw [cutRoot_of_covering held.shallow depth held.fits covering] at held'
  refine ⟨fun key => ⟨(Tree.branch c).lookup d' key.toNat, ?_, ?_⟩,
    ⟨b, b', held.stored, held'.stored, hash⟩, held'.count.trans held.count.symm⟩
  · exact find_eq key (kept.nonzero r root entry) entry held.shallow held.stored held.ann.rep
      held.fits
  · exact find_eq key nonzero received.entry held'.shallow held'.stored held'.ann.rep held'.fits

end Replicas

section PartialReplica

/-- The state after a run with hashing -/
def hashed (ops : List Op) : Triedb := (runOps paddingParams {} ops).getD {}

def sourceRoot : TriedbRoot := ((hashed insertFive).roots.lookup 20).getD {}

/-- Another database with a fresh root -/
def receiver : Triedb :=
  match newRoot paddingParams {} with
  | .ok _ s => s
  | .error _ s => s

/-- The range proof that a root gives, and whether it passes -/
def proofAccepted (P : TriedbParams) (s : Triedb) (fromKey toKey : UInt64) : Option Bool := do
  let (mr, _, _) ← get s fromKey toKey true {} 20
  return validateRoot P true mr fromKey toKey

end PartialReplica

end Epilog.Db.Replication
