/- Module: Epilog/Node/MerkleReading
   source: src/src/node/local_interpreter.cpp (build_merkle_tree)
   digest: What is built from an arbitrary term. -/

import Epilog.Node.MerkleTerms

set_option autoImplicit false

namespace Epilog.Node.MerkleReading

open Epilog.Lib.Fuel Epilog.Node.MerkleTerms

variable {T : Type} {view : T → Shape T}

section Children

theorem isList_lasting (t : T) : Lasting fun n => isList view n t := by
  refine lasting_of_succ fun n => ?_
  induction n generalizing t with
  | zero => exact fun x found => nomatch found
  | succ n ih =>
    intro x found
    unfold isList at found ⊢
    split at found
    · exact found
    · obtain ⟨p, rest, rfl⟩ := Option.map_eq_some_iff.1 found
      rw [ih _ p rest, Option.map_some]
    · exact found

theorem Listed.unique {t : T} {l l' : List T} {proper proper' : Bool}
    (first : Listed view t l proper) (second : Listed view t l' proper') :
    l = l' ∧ proper = proper' :=
  Prod.mk.inj (Finds.unique (isList_lasting t) first second)

/-- A branch without children -/
def nothing : Building := ⟨0, 0, fun _ => .null, []⟩

def close (head : Head T) (b : Building) : MerkleTree × ℕ :=
  (.branch head.depth b.mask b.num b.child head.hash b.placed, head.pos)

theorem buildMerkleTree_noBranch {t : T} (noBranch : branchHead view t = none) (fuel : ℕ) :
    buildMerkleTree view (fuel + 1) t = .error (.thrown .fails) := by
  rw [buildMerkleTree, noBranch]

theorem buildMerkleTree_starved {t : T} {head : Head T} (isBranch : branchHead view t = some head)
    {fuel : ℕ} (long : isList view fuel head.children = none) :
    buildMerkleTree view (fuel + 1) t = .error .starved := by
  rw [buildMerkleTree, isBranch]
  dsimp only
  rw [long]

theorem buildMerkleTree_improper {t : T} {head : Head T} {l : List T}
    (isBranch : branchHead view t = some head) {fuel : ℕ}
    (list : isList view fuel head.children = some (l, false)) :
    buildMerkleTree view (fuel + 1) t = .error (.thrown .fails) := by
  rw [buildMerkleTree, isBranch]
  dsimp only
  rw [list]

theorem buildMerkleTree_branch {t : T} {head : Head T} {l : List T}
    (isBranch : branchHead view t = some head) {fuel : ℕ}
    (list : isList view fuel head.children = some (l, true)) :
    buildMerkleTree view (fuel + 1) t =
      (l.foldlM (place view (buildMerkleTree view fuel)) nothing).map (close head) := by
  rw [buildMerkleTree, isBranch]
  dsimp only
  rw [list]
  change (l.foldlM (place view (buildMerkleTree view fuel)) nothing >>= _) = _
  cases l.foldlM (place view (buildMerkleTree view fuel)) nothing <;> rfl

/-- A child below the branching factor is set. -/
def put (b : Building) (x : MerkleTree × ℕ) : Building where
  mask := b.mask ||| (1#32 <<< x.2)
  num := b.num + x.1.numEntries
  child := Function.update b.child (Fin.ofNat 32 x.2) x.1
  placed := b.placed ++ [x.2]

theorem child_put (b : Building) (x : MerkleTree × ℕ) :
    (put b x).child = Function.update b.child (Fin.ofNat 32 x.2) x.1 := rfl

theorem setChild_below (b : Building) {x : MerkleTree × ℕ} (below : x.2 < 32) :
    b.setChild x.1 x.2 = .ok (put b x) := by
  have same : (⟨x.2, below⟩ : Fin 32) = Fin.ofNat 32 x.2 := Fin.ext (Nat.mod_eq_of_lt below).symm
  rw [Building.setChild, dif_pos below, same, put]

theorem setChild_beyond (b : Building) {x : MerkleTree × ℕ} (beyond : 32 ≤ x.2) :
    b.setChild x.1 x.2 = .error (.thrown .outOfBounds) := by
  rw [Building.setChild, dif_neg (Nat.not_lt.2 beyond)]

/-- The children have been built and have places. -/
def Placed (view : T → Shape T) (build : T → Except (Halt Stop) (MerkleTree × ℕ)) (c : T)
    (x : MerkleTree × ℕ) : Prop :=
  buildChild view build c = .ok x ∧ x.2 < 32

variable {build : T → Except (Halt Stop) (MerkleTree × ℕ)}

theorem foldlM_place_ok {l : List T} {b b' : Building}
    (done : l.foldlM (place view build) b = .ok b') :
    ∃ nodes, List.Forall₂ (Placed view build) l nodes ∧ b' = nodes.foldl put b := by
  induction l generalizing b with
  | nil =>
    obtain rfl := Except.ok.inj done
    exact ⟨[], .nil, rfl⟩
  | cons c l ih =>
    rw [List.foldlM_cons] at done
    cases built : buildChild view build c with
    | error e =>
      rw [place, built] at done
      exact nomatch done
    | ok x =>
      rw [place, built] at done
      change (b.setChild x.1 x.2 >>= _) = _ at done
      by_cases below : x.2 < 32
      · rw [setChild_below b below] at done
        obtain ⟨nodes, placed, rfl⟩ := ih done
        exact ⟨x :: nodes, .cons ⟨built, below⟩ placed, rfl⟩
      · rw [setChild_beyond b (Nat.not_lt.1 below)] at done
        exact nomatch done

theorem foldlM_place_of_placed {l : List T} {nodes : List (MerkleTree × ℕ)} (b : Building)
    (placed : List.Forall₂ (Placed view build) l nodes) :
    l.foldlM (place view build) b = .ok (nodes.foldl put b) := by
  induction placed generalizing b with
  | nil => rfl
  | @cons c x l nodes here _ ih =>
    rw [List.foldlM_cons, place, here.1]
    change (b.setChild x.1 x.2 >>= _) = _
    rw [setChild_below b here.2]
    exact ih (put b x)

theorem foldlM_place_error {l : List T} {b : Building} {e : Halt Stop}
    (stopped : l.foldlM (place view build) b = .error e) :
    ∃ before c after, l = before ++ c :: after ∧ (∀ b ∈ before, ∃ x, Placed view build b x) ∧
      (buildChild view build c = .error e ∨
        ∃ x, buildChild view build c = .ok x ∧ 32 ≤ x.2 ∧ e = .thrown .outOfBounds) := by
  induction l generalizing b with
  | nil => exact nomatch stopped
  | cons c l ih =>
    rw [List.foldlM_cons] at stopped
    cases built : buildChild view build c with
    | error e' =>
      rw [place, built] at stopped
      obtain rfl := Except.error.inj stopped
      exact ⟨[], c, l, rfl, fun b mem => absurd mem List.not_mem_nil, .inl built⟩
    | ok x =>
      rw [place, built] at stopped
      change (b.setChild x.1 x.2 >>= _) = _ at stopped
      by_cases below : x.2 < 32
      · rw [setChild_below b below] at stopped
        obtain ⟨before, c', after, rfl, placed, reason⟩ := ih stopped
        refine ⟨c :: before, c', after, rfl, fun b mem => ?_, reason⟩
        rcases List.mem_cons.1 mem with rfl | mem
        · exact ⟨x, built, below⟩
        · exact placed b mem
      · rw [setChild_beyond b (Nat.not_lt.1 below)] at stopped
        obtain rfl := Except.error.inj stopped
        exact ⟨[], c, l, rfl, fun b mem => absurd mem List.not_mem_nil,
          .inr ⟨x, built, Nat.not_lt.1 below, rfl⟩⟩

end Children

section Counting

theorem WellBuilt.numEntries {tree : MerkleTree} (good : tree.WellBuilt) :
    tree.numEntries = UInt64.ofNat tree.leafCount := by
  cases tree with
  | null => rfl
  | leaf key data hash => rfl
  | branch depth mask num child hash placed => exact good.2.1

variable {b : Building} {nodes : List (MerkleTree × ℕ)}

theorem placed_puts : (nodes.foldl put b).placed = b.placed ++ nodes.map (·.2) := by
  induction nodes generalizing b with
  | nil => exact (List.append_nil _).symm
  | cons x nodes ih => rw [List.foldl_cons, ih, put, List.append_assoc, List.map_cons]; rfl

theorem child_puts (i : Fin 32) : (nodes.foldl put b).child i = b.child i ∨
    ∃ x ∈ nodes, (nodes.foldl put b).child i = x.1 := by
  induction nodes generalizing b with
  | nil => exact .inl rfl
  | cons x nodes ih =>
    rw [List.foldl_cons]
    rcases ih (b := put b x) with kept | ⟨y, mem, same⟩
    · rw [kept]
      by_cases here : i = Fin.ofNat 32 x.2
      · exact .inr ⟨x, List.mem_cons_self, by rw [child_put, here, Function.update_self]⟩
      · exact .inl (by rw [child_put, Function.update_of_ne here])
    · exact .inr ⟨y, List.mem_cons_of_mem x mem, same⟩

theorem child_puts_other {i : Fin 32} (apart : ∀ x ∈ nodes, x.2 < 32 ∧ x.2 ≠ i.val) :
    (nodes.foldl put b).child i = b.child i := by
  induction nodes generalizing b with
  | nil => rfl
  | cons x nodes ih =>
    obtain ⟨below, other⟩ := apart x List.mem_cons_self
    rw [List.foldl_cons, ih fun y mem => apart y (List.mem_cons_of_mem x mem), child_put,
      Function.update_of_ne]
    rintro rfl
    exact other (Nat.mod_eq_of_lt below).symm

theorem child_puts_mem (below : ∀ x ∈ nodes, x.2 < 32) (nodup : (nodes.map (·.2)).Nodup)
    {x : MerkleTree × ℕ} (mem : x ∈ nodes) :
    (nodes.foldl put b).child (Fin.ofNat 32 x.2) = x.1 := by
  induction nodes generalizing b with
  | nil => exact absurd mem List.not_mem_nil
  | cons y nodes ih =>
    obtain ⟨fresh, nodup⟩ := List.nodup_cons.1 nodup
    have later (z : MerkleTree × ℕ) (mem : z ∈ nodes) : z.2 < 32 :=
      below z (List.mem_cons_of_mem y mem)
    rcases List.mem_cons.1 mem with rfl | mem
    · rw [List.foldl_cons, child_puts_other, child_put, Function.update_self]
      refine fun z mem => ⟨later z mem, fun same => fresh ?_⟩
      rw [Fin.val_ofNat, Nat.mod_eq_of_lt (below x List.mem_cons_self)] at same
      exact List.mem_map.2 ⟨z, mem, same⟩
    · exact ih later nodup mem

theorem sum_update {ι : Type} [Fintype ι] [DecidableEq ι] (f : ι → ℕ) {i : ι} (n : ℕ)
    (zero : f i = 0) : ∑ j, Function.update f i n j = ∑ j, f j + n := by
  have others := Finset.add_sum_erase Finset.univ f (Finset.mem_univ i)
  rw [zero, Nat.zero_add] at others
  rw [Finset.sum_update_of_mem (Finset.mem_univ i), Finset.sdiff_singleton_eq_erase, others,
    Nat.add_comm]

theorem leafCount_puts (below : ∀ x ∈ nodes, x.2 < 32) (nodup : (nodes.map (·.2)).Nodup)
    (free : ∀ x ∈ nodes, b.child (Fin.ofNat 32 x.2) = .null) :
    ∑ i, ((nodes.foldl put b).child i).leafCount =
      ∑ i, (b.child i).leafCount + (nodes.map (·.1.leafCount)).sum := by
  induction nodes generalizing b with
  | nil => rw [List.map_nil, List.sum_nil, Nat.add_zero, List.foldl_nil]
  | cons x nodes ih =>
    obtain ⟨fresh, nodup⟩ := List.nodup_cons.1 nodup
    have here := below x List.mem_cons_self
    have later (z : MerkleTree × ℕ) (mem : z ∈ nodes) : z.2 < 32 :=
      below z (List.mem_cons_of_mem x mem)
    have added : ∑ i, ((put b x).child i).leafCount =
        ∑ i, (b.child i).leafCount + x.1.leafCount := by
      have update : (fun i => ((put b x).child i).leafCount) =
          Function.update (fun i => (b.child i).leafCount) (Fin.ofNat 32 x.2) x.1.leafCount := by
        funext i
        rw [child_put]
        exact Function.apply_update (fun _ => MerkleTree.leafCount) b.child _ x.1 i
      have zero : (b.child (Fin.ofNat 32 x.2)).leafCount = 0 := by
        rw [free x List.mem_cons_self, MerkleTree.leafCount]
      rw [update, sum_update (fun i => (b.child i).leafCount) _ zero]
    rw [List.foldl_cons, ih later nodup, added, List.map_cons, List.sum_cons, Nat.add_assoc]
    intro z mem
    rw [child_put, Function.update_of_ne]
    · exact free z (List.mem_cons_of_mem x mem)
    · intro same
      have vals := congrArg Fin.val same
      rw [Fin.val_ofNat, Fin.val_ofNat, Nat.mod_eq_of_lt (later z mem), Nat.mod_eq_of_lt here] at vals
      exact fresh (List.mem_map.2 ⟨z, mem, vals⟩)

theorem num_puts (good : ∀ x ∈ nodes, x.1.WellBuilt) : (nodes.foldl put b).num =
    b.num + UInt64.ofNat (nodes.map (·.1.leafCount)).sum := by
  induction nodes generalizing b with
  | nil => exact (UInt64.add_zero _).symm
  | cons x nodes ih =>
    rw [List.foldl_cons, ih fun y mem => good y (List.mem_cons_of_mem x mem), put,
      WellBuilt.numEntries (good x List.mem_cons_self), List.map_cons, List.sum_cons,
      UInt64.ofNat_add, UInt64.add_assoc]

end Counting

section Reading

theorem branchHead_of_isLeaf {t : T} (leaf : isLeaf view t = true) : branchHead view t = none := by
  unfold isLeaf at leaf
  split at leaf
  · next shape => rw [branchHead, shape]
  · exact nomatch leaf

/-- What the end of building says about a term that is no leaf, or about any child -/
def Spec (view : T → Shape T) (c : T) : Except (Halt Stop) (MerkleTree × ℕ) → Prop
  | .ok x => WellFormed view c ∧ InBounds view c ∧ position view c = x.2 ∧
    (x.1.WellBuilt ↔ Distinct view c)
  | .error (.thrown .fails) => ¬ WellFormed view c ∧ InBounds view c
  | .error (.thrown .outOfBounds) => ¬ InBounds view c
  | .error .starved => True

theorem buildChild_spec {build : T → Except (Halt Stop) (MerkleTree × ℕ)}
    (spec : ∀ t, isLeaf view t = false → Spec view t (build t)) (c : T) :
    Spec view c (buildChild view build c) := by
  unfold buildChild
  split_ifs with leaf
  · have noBranch := branchHead_of_isLeaf leaf
    cases built : buildLeaf view c with
    | none =>
      refine ⟨fun formed => ?_, .noBranch noBranch⟩
      cases formed with
      | leaf _ built' => exact nomatch built.symm.trans built'
      | branch isBranch _ _ => exact nomatch noBranch.symm.trans isBranch
    | some x =>
      refine ⟨.leaf leaf built, .noBranch noBranch, ?_, iff_of_true ?_ (.noBranch noBranch)⟩
      · rw [position, if_pos leaf, built, Option.elim_some]
      · unfold buildLeaf at built
        split at built
        · simp only [Option.bind_eq_bind, Option.bind_eq_some_iff] at built
          obtain ⟨_, _, _, _, _, _, _, _, same⟩ := built
          cases same
          trivial
        · exact nomatch built
  · exact spec c (Bool.not_eq_true _ ▸ leaf)

theorem not_wellFormed {t : T} {head : Head T} {l : List T} {proper : Bool}
    (isBranch : branchHead view t = some head) (listed : Listed view head.children l proper)
    (bad : proper = false ∨ ∃ c ∈ l, ¬ WellFormed view c) : ¬ WellFormed view t := by
  intro formed
  cases formed with
  | leaf leaf _ => exact nomatch (branchHead_of_isLeaf leaf).symm.trans isBranch
  | branch isBranch' listed' each =>
    cases isBranch.symm.trans isBranch'
    obtain ⟨rfl, rfl⟩ := Listed.unique listed listed'
    rcases bad with improper | ⟨c, mem, bad⟩
    · exact nomatch improper
    · exact bad (each c mem)

theorem inBounds_of_stop {t : T} {head : Head T} {before after : List T} {c : T}
    (isBranch : branchHead view t = some head)
    (listed : Listed view head.children (before ++ c :: after) true)
    (earlier : ∀ b ∈ before, InBounds view b ∧ position view b < 32)
    (bad : ¬ WellFormed view c) (inside : InBounds view c) : InBounds view t := by
  have reached (before' : List T) (c' : T) (after' : List T)
      (split : before ++ c :: after = before' ++ c' :: after')
      (formed : ∀ b ∈ before', WellFormed view b) : c' = c ∨ c' ∈ before := by
    rcases List.append_eq_append_iff.1 split with ⟨rest, rfl, rest_eq⟩ | ⟨rest, rfl, rest_eq⟩
    · cases rest with
      | nil => exact .inl (List.cons.inj rest_eq).1.symm
      | cons d rest =>
        obtain ⟨rfl, _⟩ := List.cons.inj rest_eq
        exact absurd (formed c (List.mem_append_right _ List.mem_cons_self)) bad
    · cases rest with
      | nil => exact .inl (List.cons.inj rest_eq).1
      | cons d rest =>
        obtain ⟨rfl, _⟩ := List.cons.inj rest_eq
        exact .inr (List.mem_append_right _ List.mem_cons_self)
  refine .branch isBranch listed (fun before' c' after' split formed => ?_)
    fun before' c' after' split formed formed' => ?_
  · rcases reached before' c' after' split formed with rfl | mem
    · exact inside
    · exact (earlier c' mem).1
  · rcases reached before' c' after' split formed with rfl | mem
    · exact absurd formed' bad
    · exact (earlier c' mem).2

theorem not_inBounds {t : T} {head : Head T} {before after : List T} {c : T}
    (isBranch : branchHead view t = some head)
    (listed : Listed view head.children (before ++ c :: after) true)
    (formed : ∀ b ∈ before, WellFormed view b)
    (outside : InBounds view c → (WellFormed view c → position view c < 32) → False) :
    ¬ InBounds view t := by
  intro inBounds
  cases inBounds with
  | noBranch noBranch => exact nomatch noBranch.symm.trans isBranch
  | improper isBranch' listed' =>
    cases isBranch.symm.trans isBranch'
    exact nomatch (Listed.unique listed listed').2
  | branch isBranch' listed' inside below =>
    cases isBranch.symm.trans isBranch'
    have split := (Listed.unique listed listed').1.symm
    exact outside (inside before c after split formed) (below before c after split formed)

theorem forall₂_placed {build : T → Except (Halt Stop) (MerkleTree × ℕ)}
    (spec : ∀ c, Spec view c (buildChild view build c)) {l : List T}
    {nodes : List (MerkleTree × ℕ)} (placed : List.Forall₂ (Placed view build) l nodes) :
    l.map (position view) = nodes.map (·.2) ∧ (∀ x ∈ nodes, x.2 < 32) ∧
      (∀ c ∈ l, WellFormed view c ∧ InBounds view c ∧ position view c < 32) ∧
      (∀ c ∈ l, ∃ x ∈ nodes, x.1.WellBuilt ↔ Distinct view c) ∧
      ∀ x ∈ nodes, ∃ c ∈ l, x.1.WellBuilt ↔ Distinct view c := by
  induction placed with
  | nil => simp
  | @cons c x l nodes here _ ih =>
    obtain ⟨positions, below, formed, forth, back⟩ := ih
    have stated := spec c
    rw [here.1] at stated
    obtain ⟨formed', inside, pos, good⟩ := stated
    have low : position view c < 32 := pos ▸ here.2
    refine ⟨by rw [List.map_cons, List.map_cons, pos, positions],
      List.forall_mem_cons.2 ⟨here.2, below⟩,
      List.forall_mem_cons.2 ⟨⟨formed', inside, low⟩, formed⟩,
      List.forall_mem_cons.2 ⟨⟨x, List.mem_cons_self, good⟩, fun d mem => ?_⟩,
      List.forall_mem_cons.2 ⟨⟨c, List.mem_cons_self, good⟩, fun y mem => ?_⟩⟩
    · obtain ⟨y, mem', good'⟩ := forth d mem
      exact ⟨y, List.mem_cons_of_mem x mem', good'⟩
    · obtain ⟨d, mem', good'⟩ := back y mem
      exact ⟨d, List.mem_cons_of_mem c mem', good'⟩

theorem wellBuilt_close_iff {t : T} {head : Head T} {l : List T}
    (isBranch : branchHead view t = some head) (listed : Listed view head.children l true)
    {build : T → Except (Halt Stop) (MerkleTree × ℕ)}
    (spec : ∀ c, Spec view c (buildChild view build c)) {nodes : List (MerkleTree × ℕ)}
    (placed : List.Forall₂ (Placed view build) l nodes) :
    (close head (nodes.foldl put nothing)).1.WellBuilt ↔ Distinct view t := by
  obtain ⟨positions, below, _, forth, back⟩ := forall₂_placed spec placed
  have atPlaces : (nodes.foldl put nothing).placed = l.map (position view) := by
    rw [placed_puts, positions]
    rfl
  constructor
  · rintro ⟨nodup, _, children⟩
    rw [atPlaces] at nodup
    refine .branch isBranch listed nodup fun c mem => ?_
    obtain ⟨x, mem', good⟩ := forth c mem
    rw [positions] at nodup
    have here := children (Fin.ofNat 32 x.2)
    rw [child_puts_mem below nodup mem'] at here
    exact good.1 here
  · intro distinct
    cases distinct with
    | noBranch noBranch => exact nomatch noBranch.symm.trans isBranch
    | branch isBranch' listed' apart each =>
      cases isBranch.symm.trans isBranch'
      obtain ⟨rfl, _⟩ := Listed.unique listed listed'
      have good (x : MerkleTree × ℕ) (mem : x ∈ nodes) : x.1.WellBuilt := by
        obtain ⟨c, mem', same⟩ := back x mem
        exact same.2 (each c mem')
      refine ⟨?_, ?_, fun i => ?_⟩
      · rw [atPlaces]
        exact apart
      · rw [positions] at apart
        rw [num_puts good, leafCount_puts below apart fun _ _ => rfl]
        simp [nothing, MerkleTree.leafCount]
      · rcases child_puts (b := nothing) i with none | ⟨x, mem, same⟩
        · rw [none]
          trivial
        · rw [same]
          exact good x mem

theorem buildMerkleTree_spec (fuel : ℕ) (t : T) (notLeaf : isLeaf view t = false) :
    Spec view t (buildMerkleTree view fuel t) := by
  induction fuel generalizing t with
  | zero => trivial
  | succ fuel ih =>
    cases isBranch : branchHead view t with
    | none =>
      rw [buildMerkleTree_noBranch isBranch]
      refine ⟨fun formed => ?_, .noBranch isBranch⟩
      cases formed with
      | leaf leaf _ => exact nomatch notLeaf.symm.trans leaf
      | branch isBranch' _ _ => exact nomatch isBranch.symm.trans isBranch'
    | some head =>
      have spec (c : T) : Spec view c (buildChild view (buildMerkleTree view fuel) c) :=
        buildChild_spec ih c
      cases list : isList view fuel head.children with
      | none =>
        rw [buildMerkleTree_starved isBranch list]
        trivial
      | some p =>
        obtain ⟨l, proper⟩ := p
        have listed : Listed view head.children l proper := ⟨fuel, list⟩
        cases proper with
        | false =>
          rw [buildMerkleTree_improper isBranch list]
          exact ⟨not_wellFormed isBranch listed (.inl rfl), .improper isBranch listed⟩
        | true =>
          rw [buildMerkleTree_branch isBranch list]
          cases fold : l.foldlM (place view (buildMerkleTree view fuel)) nothing with
          | ok b =>
            obtain ⟨nodes, placed, rfl⟩ := foldlM_place_ok fold
            obtain ⟨_, _, formed, _, _⟩ := forall₂_placed spec placed
            refine ⟨.branch isBranch listed fun c mem => (formed c mem).1,
              .branch isBranch listed (fun before c after split _ => ?_)
                fun before c after split _ _ => ?_, ?_,
              wellBuilt_close_iff isBranch listed spec placed⟩
            · exact (formed c (split ▸ List.mem_append_right _ List.mem_cons_self)).2.1
            · exact (formed c (split ▸ List.mem_append_right _ List.mem_cons_self)).2.2
            · rw [position, notLeaf, if_neg Bool.false_ne_true, isBranch, Option.elim_some]
              rfl
          | error e =>
            obtain ⟨before, c, after, rfl, placed, reason⟩ := foldlM_place_error fold
            have earlier (b : T) (mem : b ∈ before) :
                WellFormed view b ∧ InBounds view b ∧ position view b < 32 := by
              obtain ⟨x, built, below⟩ := placed b mem
              have stated := spec b
              rw [built] at stated
              exact ⟨stated.1, stated.2.1, stated.2.2.1 ▸ below⟩
            have stated := spec c
            rcases reason with built | ⟨x, built, beyond, rfl⟩
            · rw [built] at stated
              match e, stated with
              | .starved, _ => trivial
              | .thrown .fails, ⟨bad, inside⟩ =>
                exact ⟨not_wellFormed isBranch listed
                  (.inr ⟨c, List.mem_append_right _ List.mem_cons_self, bad⟩),
                  inBounds_of_stop isBranch listed (fun b mem => (earlier b mem).2) bad inside⟩
              | .thrown .outOfBounds, outside =>
                exact not_inBounds isBranch listed (fun b mem => (earlier b mem).1)
                  fun inside _ => outside inside
            · rw [built] at stated
              refine not_inBounds isBranch listed (fun b mem => (earlier b mem).1) fun _ below => ?_
              have less := below stated.1
              rw [stated.2.2.1] at less
              exact absurd less (Nat.not_lt.2 beyond)

theorem InBounds.ends {t : T} (inBounds : InBounds view t) :
    ∃ n, ∀ m, n ≤ m → buildMerkleTree view m t ≠ .error .starved := by
  induction inBounds with
  | noBranch noBranch =>
    refine ⟨1, fun m le => ?_⟩
    obtain ⟨m, rfl⟩ := Nat.exists_eq_add_of_le' le
    rw [buildMerkleTree_noBranch noBranch]
    exact nofun
  | improper isBranch listed =>
    obtain ⟨n, list⟩ := listed
    refine ⟨n + 1, fun m le => ?_⟩
    obtain ⟨m, rfl⟩ := Nat.exists_eq_add_of_le' (Nat.le_trans (Nat.le_add_left 1 n) le)
    rw [buildMerkleTree_improper isBranch
      (isList_lasting _ n m _ (Nat.le_of_succ_le_succ le) list)]
    exact nofun
  | @branch t head l isBranch listed _ _ ih =>
    -- The fuel of the children that are reached, from the last one on
    have fold (before after : List T) (split : l = before ++ after)
        (formed : ∀ b ∈ before, WellFormed view b) : ∃ n, ∀ m, n ≤ m → ∀ b,
          after.foldlM (place view (buildMerkleTree view m)) b ≠ .error .starved := by
      induction after generalizing before with
      | nil => exact ⟨0, fun m _ b => nofun⟩
      | cons c after ihList =>
        obtain ⟨n, ends⟩ := ih before c after split formed
        have child (m : ℕ) (le : n ≤ m) :
            buildChild view (buildMerkleTree view m) c ≠ .error .starved := by
          unfold buildChild
          split_ifs
          · cases buildLeaf view c <;> exact nofun
          · exact ends m le
        by_cases formed' : WellFormed view c
        · obtain ⟨n', later⟩ := ihList (before ++ [c])
            (by rw [List.append_assoc]; exact split) fun b mem => by
              rcases List.mem_append.1 mem with mem | mem
              · exact formed b mem
              · exact List.mem_singleton.1 mem ▸ formed'
          refine ⟨max n n', fun m le b => ?_⟩
          have notStarved := child m (Nat.le_trans (Nat.le_max_left n n') le)
          rw [List.foldlM_cons, place]
          cases built : buildChild view (buildMerkleTree view m) c with
          | error e =>
            rw [built] at notStarved
            exact fun same => notStarved (congrArg Except.error (Except.error.inj same))
          | ok x =>
            change (b.setChild x.1 x.2 >>= _) ≠ _
            by_cases low : x.2 < 32
            · rw [setChild_below b low]
              exact later m (Nat.le_trans (Nat.le_max_right n n') le) _
            · rw [setChild_beyond b (Nat.not_lt.1 low)]
              exact nofun
        · refine ⟨n, fun m le b => ?_⟩
          have stated : Spec view c (buildChild view (buildMerkleTree view m) c) :=
            buildChild_spec (buildMerkleTree_spec m) c
          have notStarved := child m le
          rw [List.foldlM_cons, place]
          cases built : buildChild view (buildMerkleTree view m) c with
          | error e =>
            rw [built] at notStarved
            exact fun same => notStarved (congrArg Except.error (Except.error.inj same))
          | ok x =>
            rw [built] at stated
            exact absurd stated.1 formed'
    obtain ⟨n, list⟩ := listed
    obtain ⟨n', ends⟩ := fold [] l rfl fun b mem => absurd mem List.not_mem_nil
    refine ⟨max n n' + 1, fun m le => ?_⟩
    obtain ⟨m, rfl⟩ := Nat.exists_eq_add_of_le' (Nat.le_trans (Nat.le_add_left 1 _) le)
    have enough := Nat.le_of_succ_le_succ le
    rw [buildMerkleTree_branch isBranch
      (isList_lasting _ n m _ (Nat.le_trans (Nat.le_max_left n n') enough) list)]
    have notStarved := ends m (Nat.le_trans (Nat.le_max_right n n') enough) nothing
    cases built : l.foldlM (place view (buildMerkleTree view m)) nothing with
    | error e =>
      rw [built] at notStarved
      exact fun same => notStarved (congrArg Except.error (Except.error.inj same))
    | ok b => exact nofun

theorem safe_iff (t : T) :
    Safe view t ↔ InBounds view t ∧ (WellFormed view t → Distinct view t) := by
  have root (fuel : ℕ) (notStarved : buildMerkleTree view fuel t ≠ .error .starved) :
      Acceptable (buildMerkleTree view fuel t) ↔
        InBounds view t ∧ (WellFormed view t → Distinct view t) := by
    cases leaf : isLeaf view t with
    | true =>
      have noBranch := branchHead_of_isLeaf leaf
      cases fuel with
      | zero => exact absurd rfl notStarved
      | succ fuel =>
        rw [buildMerkleTree_noBranch noBranch]
        exact iff_of_true trivial ⟨.noBranch noBranch, fun _ => .noBranch noBranch⟩
    | false =>
      have stated := buildMerkleTree_spec fuel t leaf
      match built : buildMerkleTree view fuel t, stated with
      | .ok x, ⟨formed, inside, _, good⟩ =>
        exact good.trans ⟨fun distinct => ⟨inside, fun _ => distinct⟩, fun all => all.2 formed⟩
      | .error (.thrown .fails), ⟨bad, inside⟩ =>
        exact iff_of_true trivial ⟨inside, fun formed => absurd formed bad⟩
      | .error (.thrown .outOfBounds), outside =>
        exact iff_of_false (fun no => no) fun all => outside all.1
      | .error .starved, _ => exact absurd built notStarved
  constructor
  · rintro ⟨fuel, acceptable⟩
    refine (root fuel fun starved => ?_).1 acceptable
    rw [starved] at acceptable
    exact acceptable
  · intro all
    obtain ⟨fuel, ends⟩ := InBounds.ends all.1
    exact ⟨fuel, (root fuel (ends fuel (Nat.le_refl fuel))).2 all⟩

end Reading

end Epilog.Node.MerkleReading
