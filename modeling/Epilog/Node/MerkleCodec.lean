/- Module: Epilog/Node/MerkleCodec
   source: src/src/node/local_interpreter.cpp (build_leaf_term, build_tree_term, build_merkle_tree)
   digest: When a Merkle tree comes back from its term. -/

import Epilog.Db.Extract
import Epilog.Node.MerkleReading

set_option autoImplicit false

namespace Epilog.Node.MerkleCodec

open Epilog.Common.Bits Epilog.Db.Branch Epilog.Db.Merkle Epilog.Lib.Fuel
open Epilog.Node.MerkleTerms Epilog.Node.MerkleReading

section Parts

/-- The bytes that a bignum keeps -/
def kept (bytes : Bytes) : Bytes := bytes.take ((8 * bytes.length % 2 ^ 29 + 7) / 8)

theorem kept_eq_iff (bytes : Bytes) : kept bytes = bytes ↔ 8 * bytes.length < 2 ^ 29 := by
  unfold kept
  rw [List.take_eq_self_iff]
  omega

theorem setHash_newBig (hash : Bytes) :
    setHash (newBig hash).shape = some hash ↔ hash.length ≤ 256 := by
  change (if (kept hash).length ≤ 256 then some (kept hash) else none) = some hash ↔ _
  constructor
  · intro read
    split_ifs at read with short
    rwa [Option.some.inj read] at short
  · intro short
    have same : kept hash = hash := (kept_eq_iff hash).2 (by omega)
    rw [same, if_pos short]

theorem shape_intCell (v : ℤ) : (intCell v).shape = .int (v.bmod (2 ^ 61)) := rfl

theorem checkPosition_intCell {n : ℕ} (small : n ≤ 255) :
    checkPosition (intCell n).shape = some n := by
  have same : ((n : ℤ).bmod (2 ^ 61)) = n := by
    apply Int.bmod_eq_of_le <;> omega
  rw [shape_intCell, checkPosition, same, if_pos ⟨by omega, by omega⟩, Int.toNat_natCast]

theorem setDepth_intCell (depth : UInt8) :
    setDepth (intCell depth.toNat).shape = some depth := by
  rw [setDepth, checkPosition_intCell (Nat.le_of_lt_succ depth.toNat_lt), Option.map_some,
    UInt8.ofNat_toNat]

theorem getKey_intCell (key : UInt64) :
    getKey (intCell key.toNat).shape = some key ↔ key.toNat < 2 ^ 60 := by
  rw [shape_intCell, getKey]
  have high : (key.toNat : ℤ).bmod (2 ^ 61) < 2 ^ 60 := by
    have := @Int.bmod_lt (key.toNat : ℤ) (2 ^ 61) (by decide)
    omega
  constructor
  · intro read
    split_ifs at read
    have same := congrArg UInt64.toNat (Option.some.inj read)
    rw [UInt64.toNat_ofNat', Nat.mod_eq_of_lt (by omega)] at same
    omega
  · intro small
    have same : ((key.toNat : ℤ).bmod (2 ^ 61)) = key.toNat := by
      apply Int.bmod_eq_of_le <;> omega
    rw [same, if_pos (by omega), Int.toNat_natCast, UInt64.ofNat_toNat]

theorem getData_dataTerm (data : Option Bytes) : getData (dataTerm data).shape = some data ↔
    ∀ d, data = some d → d ≠ [] ∧ 8 * d.length < 2 ^ 29 := by
  match data with
  | none => exact iff_of_true rfl fun _ none => nomatch none
  | some [] => exact iff_of_false nofun fun all => (all [] rfl).1 rfl
  | some (b :: d) =>
    change some (some (kept (b :: d))) = some (some (b :: d)) ↔ _
    rw [Option.some.injEq, Option.some.injEq, kept_eq_iff]
    constructor
    · rintro small _ same
      obtain rfl := Option.some.inj same
      exact ⟨List.cons_ne_nil _ _, small⟩
    · exact fun all => (all _ rfl).2

end Parts

section Leaves

def leafTerm (key : UInt64) (data : Option Bytes) (hash : Bytes) (pos : ℕ) : Term :=
  .str .leaf [newBig hash, intCell pos, intCell key.toNat, dataTerm data]

theorem buildLeaf_leafTerm (key : UInt64) (data : Option Bytes) (hash : Bytes) (pos : ℕ) :
    buildLeaf Term.shape (leafTerm key data hash pos) = do
      let hash ← setHash (newBig hash).shape
      let pos ← checkPosition (intCell pos).shape
      let key ← getKey (intCell key.toNat).shape
      let data ← getData (dataTerm data).shape
      return (.leaf key data hash, pos) := rfl

theorem buildChild_leafTerm (build : Term → Except (Halt Stop) (MerkleTree × ℕ)) (key : UInt64)
    (data : Option Bytes) (hash : Bytes) (pos : ℕ) :
    buildChild Term.shape build (leafTerm key data hash pos) =
      orFail (buildLeaf Term.shape (leafTerm key data hash pos)) := rfl

theorem node_eq_leaf {tree : MerkleTree} {key : UInt64} {data : Option Bytes} {hash : Bytes}
    (same : tree.node = .leaf key data hash) : tree = .leaf key data hash := by
  cases tree with
  | null => exact nomatch same
  | leaf key' data' hash' =>
    cases same
    rfl
  | branch depth mask num child hash' placed => exact nomatch same

variable {key : UInt64} {data : Option Bytes} {hash : Bytes} {pos : ℕ}

theorem buildLeaf_eq_iff (small : pos ≤ 255) :
    (∃ x, buildLeaf Term.shape (leafTerm key data hash pos) = some x ∧ x.2 = pos ∧
      x.1.node = .leaf key data hash) ↔ Codable (.leaf key data hash) := by
  rw [buildLeaf_leafTerm, checkPosition_intCell small]
  unfold Codable
  rw [← setHash_newBig, ← getKey_intCell, ← getData_dataTerm]
  constructor
  · rintro ⟨x, built, _, same⟩
    simp only [Option.bind_eq_bind, Option.bind_eq_some_iff] at built
    obtain ⟨hash', hashRead, pos', _, key', keyRead, data', dataRead, done⟩ := built
    obtain rfl := Option.some.inj done
    cases node_eq_leaf same
    exact ⟨keyRead, hashRead, dataRead⟩
  · rintro ⟨keyRead, hashRead, dataRead⟩
    refine ⟨(.leaf key data hash, pos), ?_, rfl, rfl⟩
    rw [keyRead, hashRead, dataRead]
    rfl

theorem position_leafTerm {x : MerkleTree × ℕ} (small : pos ≤ 255)
    (built : buildLeaf Term.shape (leafTerm key data hash pos) = some x) : x.2 = pos := by
  rw [buildLeaf_leafTerm, checkPosition_intCell small] at built
  simp only [Option.bind_eq_bind, Option.bind_eq_some_iff] at built
  obtain ⟨_, _, pos', read, _, _, _, _, done⟩ := built
  obtain rfl := Option.some.inj done
  exact (Option.some.inj read).symm

end Leaves

section Branches

def hashTerm (hash : Bytes) : Term := if hash.length ≠ 0 then newBig hash else .emptyList

/-- The term of a branch with these terms of children -/
def branchTerm (depth : UInt8) (hash : Bytes) (pos : ℕ) (children : List Term) : Term :=
  .str .branch [hashTerm hash, intCell depth.toNat, intCell pos, listTerm children]

theorem buildTerm_branch_eq_some {depth : UInt8} {mask : BitVec 32} {child : Fin 32 → MerkleNode}
    {hash : Bytes} {pos : ℕ} {t : Term} : buildTerm (.branch depth mask child hash) pos = some t ↔
      ∃ children, List.Forall₂ (fun i t => buildTerm (child (Fin.ofNat 32 i)) i = some t)
        (maskLoop 32 mask) children ∧ t = branchTerm depth hash pos children := by
  rw [buildTerm, Option.bind_eq_bind, Option.bind_eq_some_iff]
  constructor
  · rintro ⟨children, each, done⟩
    exact ⟨children, mapM_eq_some.1 each, (Option.some.inj done).symm⟩
  · rintro ⟨children, each, rfl⟩
    exact ⟨children, mapM_eq_some.2 each, rfl⟩

theorem isList_listTerm {l l' : List Term} {proper : Bool} {fuel : ℕ}
    (list : isList Term.shape fuel (listTerm l) = some (l', proper)) : l' = l ∧ proper = true := by
  induction l generalizing fuel l' proper with
  | nil =>
    cases fuel with
    | zero => exact nomatch list
    | succ fuel =>
      cases list
      exact ⟨rfl, rfl⟩
  | cons t l ih =>
    cases fuel with
    | zero => exact nomatch list
    | succ fuel =>
      obtain ⟨⟨l'', proper'⟩, rest, same⟩ := Option.map_eq_some_iff.1 list
      obtain ⟨rfl, rfl⟩ := ih rest
      cases same
      exact ⟨rfl, rfl⟩

theorem isList_of_length_lt {l : List Term} {fuel : ℕ} (enough : l.length < fuel) :
    isList Term.shape fuel (listTerm l) = some (l, true) := by
  induction l generalizing fuel with
  | nil =>
    obtain ⟨fuel, rfl⟩ := Nat.exists_eq_add_of_le' enough
    rfl
  | cons t l ih =>
    obtain ⟨fuel, rfl⟩ := Nat.exists_eq_add_of_le' (Nat.one_le_of_lt enough)
    change (isList Term.shape fuel (listTerm l)).map _ = _
    rw [ih (Nat.lt_of_succ_lt_succ enough)]
    rfl

variable {depth : UInt8} {hash : Bytes} {pos : ℕ} {children : List Term}

theorem branchHead_branchTerm (small : pos ≤ 255) :
    branchHead Term.shape (branchTerm depth hash pos children) =
      (setHash (hashTerm hash).shape).map fun hash => ⟨hash, depth, pos, listTerm children⟩ := by
  change (do
    let hash ← setHash (hashTerm hash).shape
    let depth ← setDepth (intCell depth.toNat).shape
    let pos ← checkPosition (intCell pos).shape
    return (⟨hash, depth, pos, listTerm children⟩ : Head Term)) = _
  rw [setDepth_intCell, checkPosition_intCell small]
  cases setHash (hashTerm hash).shape <;> rfl

theorem setHash_hashTerm (hash : Bytes) :
    setHash (hashTerm hash).shape = some hash ↔ hash ≠ [] ∧ hash.length ≤ 256 := by
  cases hash with
  | nil => exact iff_of_false nofun fun all => all.1 rfl
  | cons b hash =>
    rw [← setHash_newBig, and_iff_right (List.cons_ne_nil b hash)]
    rfl

theorem getLsbD_bit {i j : ℕ} (inside : j < 32) : (1#32 <<< i).getLsbD j = true ↔ j = i := by
  rw [BitVec.getLsbD_shiftLeft, BitVec.getLsbD_one]
  simp only [inside, decide_true, Bool.true_and, Bool.and_eq_true, Bool.not_eq_true',
    decide_eq_false_iff_not, decide_eq_true_eq]
  omega

theorem getLsbD_mask_puts (nodes : List (MerkleTree × ℕ)) (b : Building) {j : ℕ} (inside : j < 32) :
    (nodes.foldl put b).mask.getLsbD j = true ↔
      b.mask.getLsbD j = true ∨ j ∈ nodes.map (·.2) := by
  induction nodes generalizing b with
  | nil => rw [List.foldl_nil, List.map_nil, or_iff_left List.not_mem_nil]
  | cons x nodes ih =>
    rw [List.foldl_cons, ih, put, BitVec.getLsbD_or, Bool.or_eq_true, getLsbD_bit inside,
      List.map_cons, List.mem_cons, or_assoc]

theorem mem_maskLoop {mask : BitVec 32} {i : ℕ} :
    i ∈ maskLoop 32 mask ↔ mask.getLsbD i = true := by
  rw [maskLoop_eq, List.mem_filter, List.mem_range, and_iff_right_iff_imp]
  exact BitVec.lt_of_getLsbD

theorem nodup_maskLoop (mask : BitVec 32) : (maskLoop 32 mask).Nodup := by
  rw [maskLoop_eq]
  exact List.nodup_range.filter _

theorem node_close {head : Head Term} {mask : BitVec 32} {child : Fin 32 → MerkleNode}
    {nodes : List (MerkleTree × ℕ)} (positions : nodes.map (·.2) = maskLoop 32 mask) :
    (close head (nodes.foldl put nothing)).1.node = .branch head.depth mask child head.hash ↔
      (∀ i, mask.getLsbD i.val = false → child i = .null) ∧
        ∀ x ∈ nodes, x.1.node = child (Fin.ofNat 32 x.2) := by
  have set (x : MerkleTree × ℕ) (mem : x ∈ nodes) : mask.getLsbD x.2 = true := by
    rw [← mem_maskLoop, ← positions]
    exact List.mem_map_of_mem mem
  have below (x : MerkleTree × ℕ) (mem : x ∈ nodes) : x.2 < 32 := BitVec.lt_of_getLsbD (set x mem)
  have nodup : (nodes.map (·.2)).Nodup := positions ▸ nodup_maskLoop mask
  have same : (nodes.foldl put nothing).mask = mask := by
    refine BitVec.eq_of_getLsbD_eq fun j inside => ?_
    rw [Bool.eq_iff_iff, getLsbD_mask_puts nodes nothing inside, positions, mem_maskLoop]
    exact or_iff_right (by simp [nothing])
  have clear (i : Fin 32) (off : mask.getLsbD i.val = false) :
      (nodes.foldl put nothing).child i = .null := by
    refine child_puts_other fun x mem => ⟨below x mem, fun here => ?_⟩
    have on := set x mem
    rw [here, off] at on
    cases on
  rw [close, MerkleTree.node, same]
  constructor
  · intro equal
    injection equal with _ _ children _
    refine ⟨fun i off => ?_, fun x mem => ?_⟩
    · rw [← congrFun children i, clear i off]
      rfl
    · rw [← congrFun children, child_puts_mem below nodup mem]
  · rintro ⟨off, on⟩
    congr 1
    funext i
    cases bit : mask.getLsbD i.val with
    | false =>
      rw [clear i bit, off i bit]
      rfl
    | true =>
      rw [← mem_maskLoop, ← positions, List.mem_map] at bit
      obtain ⟨x, mem, here⟩ := bit
      have index : Fin.ofNat 32 x.2 = i := Fin.ext (by
        rw [Fin.val_ofNat, Nat.mod_eq_of_lt (below x mem), here])
      have there := child_puts_mem (b := nothing) below nodup mem
      rw [index] at there
      rw [there, on x mem, index]

end Branches

section Codec

/-- Enough fuel builds a node at a position. -/
def Comes (m : MerkleNode) (pos : ℕ) (t : Term) : Prop :=
  ∃ x : MerkleTree × ℕ, Settles (fun n => buildChild Term.shape (buildMerkleTree Term.shape n) t)
    (.ok x) ∧ x.2 = pos ∧ x.1.node = m

theorem settles_branchTerm {depth : UInt8} {hash : Bytes} {pos : ℕ} {children : List Term}
    {nodes : List (MerkleTree × ℕ)} (small : pos ≤ 255) (short : hash ≠ [] ∧ hash.length ≤ 256)
    {n : ℕ} (placed : ∀ m, n ≤ m →
      List.Forall₂ (Placed Term.shape (buildMerkleTree Term.shape m)) children nodes) :
    Settles (fun n => buildMerkleTree Term.shape n (branchTerm depth hash pos children))
      (.ok (close ⟨hash, depth, pos, listTerm children⟩ (nodes.foldl put nothing))) := by
  have isBranch : branchHead Term.shape (branchTerm depth hash pos children) =
      some ⟨hash, depth, pos, listTerm children⟩ := by
    rw [branchHead_branchTerm small, (setHash_hashTerm hash).2 short, Option.map_some]
  refine ⟨max n (children.length + 1) + 1, fun m le => ?_⟩
  obtain ⟨m, rfl⟩ := Nat.exists_eq_add_of_le' (Nat.le_trans (Nat.le_add_left 1 _) le)
  have enough := Nat.le_of_succ_le_succ le
  dsimp only
  rw [buildMerkleTree_branch isBranch
      (isList_of_length_lt (Nat.le_trans (Nat.le_max_right _ _) enough)),
    foldlM_place_of_placed nothing (placed m (Nat.le_trans (Nat.le_max_left _ _) enough))]
  rfl

theorem Codable.comes {m : MerkleNode} (codable : Codable m) {pos : ℕ} (small : pos ≤ 255) :
    ∃ t, buildTerm m pos = some t ∧ Comes m pos t := by
  induction m generalizing pos with
  | null => exact codable.elim
  | leaf key data hash =>
    obtain ⟨x, built, atPos, same⟩ := (buildLeaf_eq_iff small).2 codable
    refine ⟨leafTerm key data hash pos, ?_, x, ⟨0, fun n _ => ?_⟩, atPos, same⟩
    · rw [buildTerm, if_pos (Nat.lt_trans codable.1 (by decide))]
      rfl
    · dsimp only
      rw [buildChild_leafTerm, built]
      rfl
  | branch depth mask child hash ih =>
    obtain ⟨nonempty, short, each⟩ := codable
    -- The terms and the nodes of some of the children
    have some (l : List ℕ) (set : ∀ i ∈ l, mask.getLsbD i = true) : ∃ children nodes,
        List.Forall₂ (fun i t => buildTerm (child (Fin.ofNat 32 i)) i = some t) l children ∧
        nodes.map (·.2) = l ∧ (∀ x ∈ nodes, x.1.node = child (Fin.ofNat 32 x.2)) ∧
        ∃ n, ∀ m, n ≤ m →
          List.Forall₂ (Placed Term.shape (buildMerkleTree Term.shape m)) children nodes := by
      induction l with
      | nil => exact ⟨[], [], .nil, rfl, fun x mem => absurd mem List.not_mem_nil, 0, fun _ _ => .nil⟩
      | cons i l ihList =>
        obtain ⟨children, nodes, made, positions, same, n, placed⟩ :=
          ihList fun j mem => set j (List.mem_cons_of_mem i mem)
        have on := set i List.mem_cons_self
        have below : i < 32 := BitVec.lt_of_getLsbD on
        have index : (Fin.ofNat 32 i).val = i := Nat.mod_eq_of_lt below
        have good : Codable (child (Fin.ofNat 32 i)) := by
          rcases each (Fin.ofNat 32 i) with ⟨off, _⟩ | ⟨_, good⟩
          · rw [index, on] at off
            exact nomatch off
          · exact good
        obtain ⟨t, first, x, ⟨n', built⟩, atPos, node⟩ := ih _ good (show i ≤ 255 by omega)
        refine ⟨t :: children, x :: nodes, .cons first made, ?_, ?_, max n n', fun m le => ?_⟩
        · rw [List.map_cons, atPos, positions]
        · exact List.forall_mem_cons.2 ⟨by rw [node, atPos], same⟩
        · exact .cons ⟨built m (Nat.le_trans (Nat.le_max_right n n') le), atPos ▸ below⟩
            (placed m (Nat.le_trans (Nat.le_max_left n n') le))
    obtain ⟨children, nodes, made, positions, same, n, placed⟩ :=
      some (maskLoop 32 mask) fun i => mem_maskLoop.1
    refine ⟨branchTerm depth hash pos children, buildTerm_branch_eq_some.2 ⟨children, made, rfl⟩, _,
      settles_branchTerm small ⟨nonempty, short⟩ placed, rfl, ?_⟩
    refine (node_close positions).2 ⟨fun i off => ?_, same⟩
    rcases each i with ⟨_, null⟩ | ⟨on, _⟩
    · exact null
    · exact nomatch off.symm.trans on

theorem forall₂_compose {α β γ : Type} {R : α → β → Prop} {S : β → γ → Prop} {l₁ : List α}
    {l₂ : List β} {l₃ : List γ} (first : List.Forall₂ R l₁ l₂) (second : List.Forall₂ S l₂ l₃) :
    List.Forall₂ (fun a c => ∃ b, R a b ∧ S b c) l₁ l₃ := by
  induction first generalizing l₃ with
  | nil =>
    cases second
    exact .nil
  | cons here _ ih =>
    cases second with
    | cons there later => exact .cons ⟨_, here, there⟩ (ih later)

theorem map_eq_of_forall₂ {α β : Type} {R : α → β → Prop} {f : β → α} {l : List α} {l' : List β}
    (related : List.Forall₂ R l l') (same : ∀ a ∈ l, ∀ b, R a b → f b = a) : l'.map f = l := by
  induction related with
  | nil => rfl
  | @cons a b l l' here _ ih =>
    rw [List.map_cons, same a List.mem_cons_self b here,
      ih fun a' mem => same a' (List.mem_cons_of_mem a mem)]

theorem exists_of_forall₂ {α β : Type} {R : α → β → Prop} {l : List α} {l' : List β}
    (related : List.Forall₂ R l l') {b : β} (mem : b ∈ l') : ∃ a ∈ l, R a b := by
  induction related with
  | nil => exact absurd mem List.not_mem_nil
  | @cons a b' l l' here _ ih =>
    rcases List.mem_cons.1 mem with rfl | mem
    · exact ⟨a, List.mem_cons_self, here⟩
    · obtain ⟨a', mem', there⟩ := ih mem
      exact ⟨a', List.mem_cons_of_mem a mem', there⟩

theorem codable_of_built {m : MerkleNode} {pos : ℕ} (small : pos ≤ 255) {t : Term}
    (made : buildTerm m pos = some t) {n : ℕ} {x : MerkleTree × ℕ}
    (built : buildChild Term.shape (buildMerkleTree Term.shape n) t = .ok x) :
    x.2 = pos ∧ (x.1.node = m → Codable m) := by
  induction m generalizing pos t n x with
  | null => exact nomatch made
  | leaf key data hash =>
    rw [buildTerm] at made
    split_ifs at made
    obtain rfl := Option.some.inj made
    change orFail (buildLeaf Term.shape (leafTerm key data hash pos)) = _ at built
    cases read : buildLeaf Term.shape (leafTerm key data hash pos) with
    | none =>
      rw [read] at built
      exact nomatch built
    | some y =>
      rw [read] at built
      obtain rfl := Except.ok.inj built
      have atPos := position_leafTerm small read
      exact ⟨atPos, fun same => (buildLeaf_eq_iff small).1 ⟨y, read, atPos, same⟩⟩
  | branch depth mask child hash ih =>
    obtain ⟨children, each, rfl⟩ := buildTerm_branch_eq_some.1 made
    change buildMerkleTree Term.shape n (branchTerm depth hash pos children) = _ at built
    cases n with
    | zero => exact nomatch built
    | succ n =>
      cases hashRead : setHash (hashTerm hash).shape with
      | none =>
        have noBranch : branchHead Term.shape (branchTerm depth hash pos children) = none := by
          rw [branchHead_branchTerm small, hashRead, Option.map_none]
        rw [buildMerkleTree_noBranch noBranch] at built
        exact nomatch built
      | some hash' =>
        have isBranch : branchHead Term.shape (branchTerm depth hash pos children) =
            some ⟨hash', depth, pos, listTerm children⟩ := by
          rw [branchHead_branchTerm small, hashRead, Option.map_some]
        cases list : isList Term.shape n (listTerm children) with
        | none =>
          rw [buildMerkleTree_starved isBranch list] at built
          exact nomatch built
        | some p =>
          obtain ⟨children', proper⟩ := p
          obtain ⟨rfl, rfl⟩ := isList_listTerm list
          rw [buildMerkleTree_branch isBranch list] at built
          cases fold : children'.foldlM (place Term.shape (buildMerkleTree Term.shape n)) nothing with
          | error e =>
            rw [fold] at built
            exact nomatch built
          | ok b =>
            rw [fold] at built
            obtain rfl := Except.ok.inj built
            obtain ⟨nodes, placed, rfl⟩ := foldlM_place_ok fold
            have together := forall₂_compose each placed
            have below (i : ℕ) (mem : i ∈ maskLoop 32 mask) : i < 32 :=
              BitVec.lt_of_getLsbD (mem_maskLoop.1 mem)
            have positions : nodes.map (·.2) = maskLoop 32 mask :=
              map_eq_of_forall₂ together fun i mem y here => by
                obtain ⟨t, made, built, _⟩ := here
                exact (ih _ (Nat.le_trans (Nat.le_of_lt (below i mem)) (by decide)) made built).1
            refine ⟨rfl, fun same => ?_⟩
            have sameHash : hash' = hash := by
              injection same
            subst sameHash
            obtain ⟨nonempty, short⟩ := (setHash_hashTerm hash').1 hashRead
            obtain ⟨off, on⟩ := (node_close positions).1 same
            refine ⟨nonempty, short, fun i => ?_⟩
            cases bit : mask.getLsbD i.val with
            | false => exact .inl ⟨rfl, off i bit⟩
            | true =>
              refine .inr ⟨rfl, ?_⟩
              rw [← mem_maskLoop, ← positions, List.mem_map] at bit
              obtain ⟨y, mem, here⟩ := bit
              obtain ⟨j, among, t, made, built, _⟩ := exists_of_forall₂ together mem
              have low := Nat.le_trans (Nat.le_of_lt (below j among)) (by decide : 32 ≤ 255)
              obtain ⟨atPos, codable⟩ := ih _ low made built
              have index : Fin.ofNat 32 j = i := Fin.ext (by
                rw [Fin.val_ofNat, Nat.mod_eq_of_lt (below j among), ← atPos, here])
              rw [← index]
              refine codable ?_
              rw [on y mem, atPos]

theorem roundTrip_iff (m : MerkleRoot) : RoundTrip m ↔ Codable m.node := by
  constructor
  · rintro ⟨t, made, fuel, tree, built, same⟩
    have child : buildChild Term.shape (buildMerkleTree Term.shape fuel) t = .ok (tree, 0) := by
      obtain ⟨children, _, rfl⟩ := buildTerm_branch_eq_some.1 made
      exact built
    exact (codable_of_built (Nat.zero_le 255) made child).2 same
  · intro codable
    obtain ⟨t, made, ⟨tree, pos⟩, ⟨n, built⟩, rfl, same⟩ := Codable.comes codable (Nat.zero_le 255)
    refine ⟨t, made, n, tree, ?_, same⟩
    have child := built n (Nat.le_refl n)
    obtain ⟨children, _, rfl⟩ := buildTerm_branch_eq_some.1 made
    exact child

/-- Both sides of the codec: a tree comes back exactly when it can be encoded, and an arbitrary term
is built into a good tree, or refused, exactly when it stays in bounds and uses no position twice. -/
theorem tree_codec_iff (m : MerkleRoot) {T : Type} (view : T → Shape T) (t : T) :
    (RoundTrip m ↔ Codable m.node) ∧
      (Safe view t ↔ InBounds view t ∧ (WellFormed view t → Distinct view t)) :=
  ⟨roundTrip_iff m, safe_iff t⟩

/-- The child of this term has no place in the array. -/
theorem position_beyond_not_safe :
    ¬ Safe Term.shape (branchTerm 1 [0] 0 [leafTerm 0 none [0] 32]) := by
  intro safe
  have isBranch : branchHead Term.shape (branchTerm 1 [0] 0 [leafTerm 0 none [0] 32]) =
      some ⟨[0], 1, 0, listTerm [leafTerm 0 none [0] 32]⟩ := by
    rw [branchHead_branchTerm (by decide), (setHash_hashTerm [0]).2 ⟨by decide, by decide⟩,
      Option.map_some]
  have listed : Listed Term.shape (listTerm [leafTerm 0 none [0] 32])
      ([] ++ leafTerm 0 none [0] 32 :: []) true := ⟨2, rfl⟩
  obtain ⟨x, built, atPos, _⟩ := (buildLeaf_eq_iff (show 32 ≤ 255 by decide)).2
    (⟨by decide, by decide, fun _ none => nomatch none⟩ : Codable (.leaf 0 none [0]))
  refine not_inBounds isBranch listed (fun b mem => absurd mem List.not_mem_nil)
    (fun _ below => ?_) ((safe_iff _).1 safe).1
  have leaf : isLeaf Term.shape (leafTerm 0 none [0] 32) = true := rfl
  have low := below (.leaf leaf built)
  rw [position, if_pos leaf, built, Option.elim_some, atPos] at low
  exact absurd low (by decide)

end Codec

section Extracted

/-- The mask of each branch marks its children. -/
def Marked : MerkleNode → Prop
  | .null | .leaf _ _ _ => True
  | .branch _ mask child _ => ∀ i, (mask.getLsbD i.val = true ↔ child i ≠ .null) ∧ Marked (child i)

variable {s : Epilog.Db.Store.Triedb} {includeData : Bool} {limits : Epilog.Db.Extract.Limits}

open Epilog.Db Epilog.Db.Store Epilog.Db.Extract

end Extracted

end Epilog.Node.MerkleCodec
