/- Module: Epilog/Db/Persistence
   source: src/src/db/triedb.cpp, src/src/db/triedb.hpp (nodes and roots that are written)
   digest: What can be read under a root stays, whatever is written under others. -/

import Epilog.Db.Canonicity
import Epilog.Db.Merge
import Epilog.Lib.StateFrames

set_option autoImplicit false

namespace Epilog.Db.Persistence

open Epilog.Lib.StateFrames Epilog.Db.Branch Epilog.Db.Store Epilog.Db.Representation
  Epilog.Db.Frames Epilog.Db.Versioned Epilog.Db.Iterator Epilog.Db.Merkle Epilog.Db.Merge Epilog.Db.Roots
  Epilog.Db.Canonicity

section Reading

variable {s s' : Triedb}

theorem branchAt_mono (keep : ∀ p n, s.nodes p = some n → s'.nodes p = some n) {p : ℕ}
    {b : TriedbBranch} (found : branchAt s p = some b) : branchAt s' p = some b := by
  unfold branchAt at found ⊢
  split at found
  case h_1 here =>
    rw [keep p _ here]
    exact found
  case h_2 => exact nomatch found

theorem leafAt_mono (keep : ∀ p n, s.nodes p = some n → s'.nodes p = some n) {p : ℕ}
    {l : TriedbLeaf} (found : leafAt s p = some l) : leafAt s' p = some l := by
  unfold leafAt at found ⊢
  split at found
  case h_1 here =>
    rw [keep p _ here]
    exact found
  case h_2 => exact nomatch found

variable (keep : ∀ p n, s.nodes p = some n → s'.nodes p = some n)
include keep

theorem popChildless_mono {spine x : Spine} (ran : popChildless s spine = some x) :
    popChildless s' spine = some x := by
  induction spine with
  | nil => exact ran
  | cons cur rest ih =>
    obtain ⟨parent, found, ran⟩ := Option.bind_eq_some_iff.1 ran
    refine Option.bind_eq_some_iff.2 ⟨parent, branchAt_mono keep found, ?_⟩
    split_ifs at ran ⊢
    · exact ih ran
    · exact ran

theorem steps_mono (fuel : ℕ) :
    (∀ spine x, next s fuel spine = some x → next s' fuel spine = some x) ∧
      (∀ spine x, leftmost s fuel spine = some x → leftmost s' fuel spine = some x) ∧
        ∀ spine x, descend s fuel spine = some x → descend s' fuel spine = some x := by
  induction fuel with
  | zero =>
    refine ⟨fun spine x ran => ?_, fun spine x ran => ?_, fun spine x ran => ?_⟩
    · rw [next] at ran
      cases ran
    · rw [leftmost] at ran
      cases ran
    · rw [descend] at ran
      cases ran
  | succ fuel ih =>
    obtain ⟨nextKept, leftmostKept, descendKept⟩ := ih
    refine ⟨fun spine x ran => ?_, fun spine x ran => ?_, fun spine x ran => ?_⟩
    · cases spine with
      | nil =>
        rw [next] at ran ⊢
        exact ran
      | cons cur rest =>
        rw [next] at ran ⊢
        obtain ⟨parent, found, ran⟩ := Option.bind_eq_some_iff.1 ran
        refine Option.bind_eq_some_iff.2 ⟨parent, branchAt_mono keep found, ?_⟩
        dsimp only at ran ⊢
        split_ifs at ran ⊢
        · exact nextKept _ _ ran
        · exact leftmostKept _ _ ran
    · rw [leftmost] at ran ⊢
      obtain ⟨popped, found, ran⟩ := Option.bind_eq_some_iff.1 ran
      refine Option.bind_eq_some_iff.2 ⟨popped, popChildless_mono keep found, ?_⟩
      cases popped with
      | nil => exact ran
      | cons cur rest => exact descendKept _ _ ran
    · cases spine with
      | nil =>
        rw [descend] at ran ⊢
        exact ran
      | cons cur rest =>
        rw [descend] at ran ⊢
        obtain ⟨parent, found, ran⟩ := Option.bind_eq_some_iff.1 ran
        refine Option.bind_eq_some_iff.2 ⟨parent, branchAt_mono keep found, ?_⟩
        split_ifs at ran ⊢ with isBranch
        · obtain ⟨child, below, ran⟩ := Option.bind_eq_some_iff.1 ran
          refine Option.bind_eq_some_iff.2 ⟨child, branchAt_mono keep below, ?_⟩
          split_ifs at ran ⊢
          · exact nextKept _ _ ran
          · exact descendKept _ _ ran
        · exact ran

theorem current_mono {spine : Spine} {l : TriedbLeaf} (found : current s spine = some l) :
    current s' spine = some l := by
  cases spine with
  | nil => exact found
  | cons cur rest =>
    obtain ⟨parent, above, found⟩ := Option.bind_eq_some_iff.1 found
    exact Option.bind_eq_some_iff.2 ⟨parent, branchAt_mono keep above, leafAt_mono keep found⟩

theorem adjust_mono {key : UInt64} {fuel : ℕ} {spine x : Spine}
    (ran : adjust s key fuel spine = some x) : adjust s' key fuel spine = some x := by
  induction fuel generalizing spine with
  | zero =>
    rw [adjust] at ran
    cases ran
  | succ fuel ih =>
    cases spine with
    | nil =>
      rw [adjust] at ran ⊢
      exact ran
    | cons cur rest =>
      rw [adjust] at ran ⊢
      · obtain ⟨leaf, found, ran⟩ := Option.bind_eq_some_iff.1 ran
        refine Option.bind_eq_some_iff.2 ⟨leaf, current_mono keep found, ?_⟩
        split_ifs at ran ⊢
        · exact ran
        · obtain ⟨later, went, ran⟩ := Option.bind_eq_some_iff.1 ran
          exact Option.bind_eq_some_iff.2 ⟨later, (steps_mono keep fuel).1 _ _ went, ih ran⟩
      · exact List.cons_ne_nil _ _
      · exact List.cons_ne_nil _ _

theorem followKey_mono {key : UInt64} {fuel p : ℕ} {spine : Spine}
    {x : ℕ × TriedbBranch × Fin 32 × Spine} (ran : followKey s key fuel p spine = some x) :
    followKey s' key fuel p spine = some x := by
  induction fuel generalizing p spine with
  | zero => exact nomatch ran
  | succ fuel ih =>
    obtain ⟨parent, found, ran⟩ := Option.bind_eq_some_iff.1 ran
    refine Option.bind_eq_some_iff.2 ⟨parent, branchAt_mono keep found, ?_⟩
    dsimp only at ran ⊢
    split_ifs at ran ⊢
    · exact ih ran
    · exact ran

theorem startFromKey_mono {key : UInt64} {fuel p : ℕ} {x : Spine}
    (ran : startFromKey s key fuel p = some x) : startFromKey s' key fuel p = some x := by
  obtain ⟨parent, found, ran⟩ := Option.bind_eq_some_iff.1 ran
  refine Option.bind_eq_some_iff.2 ⟨parent, branchAt_mono keep found, ?_⟩
  dsimp only at ran ⊢
  split_ifs at ran ⊢
  · exact ran
  · exact ran
  · obtain ⟨spine, left, ran⟩ := Option.bind_eq_some_iff.1 ran
    exact Option.bind_eq_some_iff.2
      ⟨spine, (steps_mono keep fuel).2.1 _ _ left, adjust_mono keep ran⟩
  · obtain ⟨⟨p', parent', sub, spine⟩, followed, ran⟩ := Option.bind_eq_some_iff.1 ran
    refine Option.bind_eq_some_iff.2 ⟨_, followKey_mono keep followed, ?_⟩
    dsimp only at ran ⊢
    split_ifs at ran ⊢
    · obtain ⟨later, went, ran⟩ := Option.bind_eq_some_iff.1 ran
      exact Option.bind_eq_some_iff.2
        ⟨later, (steps_mono keep fuel).1 _ _ went, adjust_mono keep ran⟩
    · obtain ⟨later, left, ran⟩ := Option.bind_eq_some_iff.1 ran
      exact Option.bind_eq_some_iff.2
        ⟨later, (steps_mono keep fuel).2.1 _ _ left, adjust_mono keep ran⟩
    · exact adjust_mono keep ran

theorem find_mono {r : RootId} (known : Known s r) (same : s'.roots.lookup r = s.roots.lookup r)
    {fuel : ℕ} {key : UInt64} {found : Option TriedbLeaf} (ran : find s fuel r key = some found) :
    find s' fuel r key = some found := by
  have filled (db : Triedb) (there : (db.roots.lookup r).isSome = true) : db.isEmpty = false := by
    unfold Triedb.isEmpty
    cases roots : db.roots with
    | nil =>
      rw [roots] at there
      exact nomatch there
    | cons first rest => rfl
  unfold find at ran ⊢
  split_ifs at ran ⊢
  · exact ran
  · obtain ⟨it, begun, ran⟩ := Option.bind_eq_some_iff.1 ran
    refine Option.bind_eq_some_iff.2 ⟨it, ?_, ?_⟩
    · unfold beginAt at begun ⊢
      rw [filled s known, if_neg Bool.false_ne_true] at begun
      rw [filled s' (same ▸ known), if_neg Bool.false_ne_true, same]
      obtain ⟨root, entry, begun⟩ := Option.bind_eq_some_iff.1 begun
      exact Option.bind_eq_some_iff.2 ⟨root, entry, startFromKey_mono keep begun⟩
    · cases it with
      | nil => exact ran
      | cons cur rest =>
        obtain ⟨leaf, here, ran⟩ := Option.bind_eq_some_iff.1 ran
        exact Option.bind_eq_some_iff.2 ⟨leaf, current_mono keep here, ran⟩

end Reading

section Frames

variable {P : TriedbParams} {R : Triedb → Triedb → Prop} [IsPreorder Triedb R]
  (leaves : ∀ l, Frames R (appendLeafNode P l))
  (branches : ∀ b, Frames R (appendBranchNode P b))

include leaves branches

theorem frames_updateBranch (m : MerkleNode) (br : Option TriedbBranch) :
    Frames R (updateBranch P m br) := by
  induction m generalizing br with
  | null => exact .throw _
  | leaf key data hash => exact .throw _
  | branch depth mask child hash ih =>
    have old (i : Fin 32) : Frames R (subBranch br i) := by
      unfold subBranch
      cases br with
      | none => exact .pure _
      | some br => exact .ite ((frames_getBranch _).bind fun _ => .pure _) (.pure _)
    have loop (todo : List (Fin 32)) (b : TriedbBranch) (n : UInt64) : Frames R
        (updateChildren P (fun i subBr => updateBranch P (child i) subBr) br child todo b n) := by
      induction todo generalizing b n with
      | nil => exact .pure _
      | cons i todo again =>
        unfold updateChildren
        have below := ih i
        cases here : child i with
        | null => exact again _ _
        | leaf key data hash =>
          cases data with
          | none => exact .throw _
          | some data => exact (leaves _).bind fun _ => again _ _
        | branch depth mask child' hash =>
          rw [here] at below
          exact (old i).bind fun _ => (below _).bind fun _ => (frames_getBranch _).bind fun _ =>
            again _ _
    unfold updateBranch
    exact (loop _ _ _).bind fun _ => (branches _).bind fun _ => .pure _

theorem frames_updateRoot {r : RootId} (counted : ∀ f, Frames R (modifyNumEntries r f))
    (moved : ∀ offset, Frames R (setRoot r offset)) (part : MerkleRoot) :
    Frames R (updateRoot P r part) :=
  (frames_getRoot r).bind fun _ => (frames_getBranch _).bind fun _ =>
    (frames_updateBranch leaves branches _ _).bind fun _ => (frames_getBranch _).bind fun _ =>
      (counted _).bind fun _ => moved _

end Frames

section Growing

/-- Nodes are only added, behind the ones that are there. -/
structure Added (s s' : Triedb) : Prop where
  keep : ∀ p n, s.nodes p = some n → s'.nodes p = some n
  fresh : Fresh s'

def Grows (s s' : Triedb) : Prop := Fresh s → Added s s'

instance : IsPreorder Triedb Grows where
  refl _ fresh := ⟨fun _ _ stored => stored, fresh⟩
  trans _ _ _ first second fresh :=
    let before := first fresh
    let after := second before.fresh
    ⟨fun p n stored => after.keep p n (before.keep p n stored), after.fresh⟩

variable (P : TriedbParams)

theorem grows_appendLeafNode (l : TriedbLeaf) : Frames Grows (appendLeafNode P l) := by
  intro s fresh
  simp only [appendLeafNode]
  split
  · exact ⟨(extends_appendNode P fresh _ _).nodes,
      fresh_appendNode P fresh _ (by simp only [leafSerializationSize]; omega)⟩
  · refine ⟨fun _ _ stored => stored, fun p beyond => fresh p ?_⟩
    exact (le_appendOffset P s.lastOffset _).trans beyond

theorem grows_appendBranchNode (b : TriedbBranch) : Frames Grows (appendBranchNode P b) :=
  fun _ fresh => ⟨(extends_appendNode P fresh _ _).nodes,
    fresh_appendNode P fresh _ (serializationSize_pos b)⟩

theorem grows_setRoot (r : RootId) (offset : ℕ) : Frames Grows (setRoot r offset) :=
  (frames_getRoot r).bind fun _ => .withState fun _ fresh => ⟨fun _ _ stored => stored, fresh⟩

theorem grows_modifyNumEntries (r : RootId) (f : UInt64 → UInt64) :
    Frames Grows (modifyNumEntries r f) :=
  (frames_getRoot r).bind fun _ _ fresh => ⟨fun _ _ stored => stored, fresh⟩

theorem grows_newRoot : Frames Grows (newRoot P) :=
  (frames_branchHasher _).bind fun _ => (grows_appendBranchNode P _).bind fun _ =>
    .withState fun _ fresh => ⟨fun _ _ stored => stored, fresh⟩

theorem grows_newRootFrom (parent : RootId) : Frames Grows (newRootFrom parent) :=
  (frames_getRoot parent).bind fun _ => .withState fun _ fresh =>
    ⟨fun _ _ stored => stored, fresh⟩

end Growing

section Writing

/-- The table of roots changes at one root at most. -/
def Elsewhere (r : RootId) (s s' : Triedb) : Prop :=
  ∀ q, q ≠ r → s'.roots.lookup q = s.roots.lookup q

variable {r : RootId}

instance : IsPreorder Triedb (Elsewhere r) where
  refl _ _ _ := rfl
  trans _ _ _ first second q other := (second q other).trans (first q other)

variable (P : TriedbParams)

theorem elsewhere_appendLeafNode (l : TriedbLeaf) :
    Frames (Elsewhere r) (appendLeafNode P l) := by
  intro s q other
  simp only [appendLeafNode]
  split <;> rfl

theorem elsewhere_appendBranchNode (b : TriedbBranch) :
    Frames (Elsewhere r) (appendBranchNode P b) := fun _ _ _ => rfl

theorem elsewhere_setRoot (offset : ℕ) : Frames (Elsewhere r) (setRoot r offset) :=
  (frames_getRoot r).bind fun _ => .withState fun _ q other =>
    (lookup_setRootEntry _ _ _ q).trans (if_neg other)

theorem elsewhere_modifyNumEntries (f : UInt64 → UInt64) :
    Frames (Elsewhere r) (modifyNumEntries r f) :=
  (frames_getRoot r).bind fun _ _ q other => (lookup_setRootEntry _ _ _ q).trans (if_neg other)

/-- An operation that writes one root -/
structure Writes (r : RootId) (x : Access Unit) : Prop where
  grows : Frames Grows x
  elsewhere : Frames (Elsewhere r) x
  rewrites : Rewrites x

theorem writes_insertOrUpdate (key : UInt64) (data : Bytes) (doInsert : Bool) :
    Writes r (insertOrUpdate P r key data doInsert) where
  grows := frames_insertOrUpdate (grows_appendLeafNode P) (grows_appendBranchNode P)
    (grows_modifyNumEntries r) (grows_setRoot r) key data doInsert
  elsewhere := frames_insertOrUpdate (elsewhere_appendLeafNode P) (elsewhere_appendBranchNode P)
    elsewhere_modifyNumEntries elsewhere_setRoot key data doInsert
  rewrites := rewrites_insertOrUpdate P r key data doInsert

theorem writes_remove (key : UInt64) : Writes r (remove P r key) where
  grows := frames_remove (grows_appendBranchNode P) (grows_modifyNumEntries r) (grows_setRoot r) key
  elsewhere := frames_remove (elsewhere_appendBranchNode P) elsewhere_modifyNumEntries
    elsewhere_setRoot key
  rewrites := rewrites_remove P r key

theorem keeps_updateBranch (m : MerkleNode) (br : Option TriedbBranch) :
    KeepsRoots (updateBranch P m br) :=
  .of_frames (frames_updateBranch (sameRoots_appendLeafNode P) (sameRoots_appendBranchNode P) m br)

theorem writes_updateRoot (part : MerkleRoot) : Writes r (updateRoot P r part) where
  grows := frames_updateRoot (grows_appendLeafNode P) (grows_appendBranchNode P)
    (grows_modifyNumEntries r) (grows_setRoot r) part
  elsewhere := frames_updateRoot (elsewhere_appendLeafNode P) (elsewhere_appendBranchNode P)
    elsewhere_modifyNumEntries elsewhere_setRoot part
  rewrites := .bind (keeps_getRoot r) fun _ => .bind (keeps_getBranch _) fun _ =>
    .bind (keeps_updateBranch P _ _) fun _ => .bind (keeps_getBranch _) fun _ =>
      rewrites_counted r _ _

end Writing

section Persisting

/-- Nodes are only added, and the table of roots is true to its file. -/
structure Settled (s : Triedb) : Prop where
  fresh : Fresh s
  tabled : Tabled s

theorem settled_empty : Settled {} := ⟨fun _ _ => rfl, tabled_empty⟩

/-- Everything stays under the roots that are there, with these exceptions. -/
structure Persists (except : RootId → Prop) (s s' : Triedb) : Prop where
  settled : Settled s'
  keep : ∀ p n, s.nodes p = some n → s'.nodes p = some n
  lookup : ∀ q, Known s q → ¬ except q → s'.roots.lookup q = s.roots.lookup q

variable {except except' : RootId → Prop} {s s' s'' : Triedb} {r : RootId}

theorem Persists.refl (settled : Settled s) : Persists except s s :=
  ⟨settled, fun _ _ stored => stored, fun _ _ _ => rfl⟩

theorem Persists.known (persists : Persists except s s') {q : RootId} (known : Known s q)
    (other : ¬ except q) : Known s' q := by
  rw [Known, persists.lookup q known other]
  exact known

theorem Persists.trans (first : Persists except s s') (second : Persists except s' s'') :
    Persists except s s'' where
  settled := second.settled
  keep p n stored := second.keep p n (first.keep p n stored)
  lookup q known other := (second.lookup q (first.known known other) other).trans
    (first.lookup q known other)

theorem Persists.imp (persists : Persists except s s')
    (fewer : ∀ q, Known s q → except q → except' q) : Persists except' s s' :=
  ⟨persists.settled, persists.keep, fun q known other =>
    persists.lookup q known fun excepted => other (fewer q known excepted)⟩

theorem Persists.find (persists : Persists except s s') {q : RootId} (known : Known s q)
    (other : ¬ except q) {fuel : ℕ} {key : UInt64} {found : Option TriedbLeaf}
    (ran : find s fuel q key = some found) : Iterator.find s' fuel q key = some found :=
  find_mono persists.keep known (persists.lookup q known other) ran

theorem Writes.persists {x : Access Unit} (writes : Writes r x) (settled : Settled s)
    (tabled : Tabled (endOf (x s))) : Persists (· = r) s (endOf (x s)) where
  settled := ⟨(writes.grows s settled.fresh).fresh, tabled⟩
  keep := (writes.grows s settled.fresh).keep
  lookup q _ other := writes.elsewhere s q other

theorem Writes.ok {x : Access Unit} (writes : Writes r x) (settled : Settled s)
    (ran : x s = .ok () s') : Persists (· = r) s s' := by
  have persists := writes.persists settled (by
    rw [ran]
    exact ((writes.rewrites s settled.tabled).2 s' ran).1)
  rwa [ran] at persists

theorem Writes.completed {x : Access Unit} (writes : Writes r x) (settled : Settled s)
    {reply : Reply} (ran : completed x s = some (reply, s')) : Persists (· = r) s s' := by
  have tabled := (writes.rewrites.step settled.tabled ran).1
  have same : endOf (x s) = s' := by
    unfold Roots.completed at ran
    cases result : x s with
    | ok _ after =>
      rw [result] at ran
      exact congrArg Prod.snd (Option.some.inj ran)
    | error e after =>
      rw [result] at ran
      cases e with
      | assertion => exact nomatch ran
      | keyAlreadyExists msg => exact congrArg Prod.snd (Option.some.inj ran)
      | keyNotFound msg => exact congrArg Prod.snd (Option.some.inj ran)
  have persists := writes.persists settled (same.symm ▸ tabled)
  rwa [same] at persists

variable {P : TriedbParams}

def WritesAt (r : RootId) : Op → Prop
  | .insert q _ _ => q = r
  | .update q _ _ => q = r
  | .remove q _ => q = r
  | _ => False

theorem persists_step {op : Op} (at' : WritesAt r op) (settled : Settled s) {reply : Reply}
    (ran : step P s op = some (reply, s')) : Persists (· = r) s s' := by
  cases op with
  | newRoot => exact at'.elim
  | newRootFrom parent => exact at'.elim
  | insert q key data =>
    obtain rfl : q = r := at'
    exact (writes_insertOrUpdate P key data true).completed settled
      ((completed_map _ s).symm.trans ran)
  | update q key data =>
    obtain rfl : q = r := at'
    exact (writes_insertOrUpdate P key data false).completed settled
      ((completed_map _ s).symm.trans ran)
  | remove q key =>
    obtain rfl : q = r := at'
    exact (writes_remove P key).completed settled ((completed_map _ s).symm.trans ran)

theorem persists_run {ops : List Op} (at' : ∀ op ∈ ops, WritesAt r op) (settled : Settled s)
    (ran : runOps P s ops = some s') : Persists (· = r) s s' := by
  induction ops generalizing s with
  | nil =>
    rw [← Option.some.inj ran]
    exact .refl settled
  | cons op ops ih =>
    obtain ⟨⟨reply, s₁⟩, stepped, ran⟩ := Option.bind_eq_some_iff.1 ran
    have first := persists_step (at' op List.mem_cons_self) settled stepped
    exact first.trans (ih (fun op' member => at' op' (List.mem_cons_of_mem _ member))
      first.settled ran)

theorem persists_newRoot (settled : Settled s) (atEnd : s.rootsPos = s.rootsEnd)
    (ran : newRoot P s = .ok r s') : Persists (fun _ => False) s s' ∧ ¬ Known s r := by
  have added := (grows_newRoot P).ok ran settled.fresh
  obtain ⟨s₁, root, same, id, created⟩ := newRoot_named P s
  cases created.symm.trans ran
  have here : s.rootsPos = s₁.rootsEnd := by
    rw [atEnd, Triedb.rootsEnd, Triedb.rootsEnd, same.rootsFile]
  have unused : ¬ Known s s.rootsPos := by
    rw [here, ← same.known]
    exact (settled.tabled.same same).rootsEnd_unused
  refine ⟨⟨⟨added.fresh, ?_⟩, added.keep, fun q known _ => ?_⟩, unused⟩
  · rw [here]
    exact (settled.tabled.same same).addRoot (id.trans here)
  · have other : q ≠ s.rootsPos := fun same => unused (same ▸ known)
    rw [lookup_setRootEntry, if_neg other]
    exact congrArg (List.lookup q) same.roots

theorem persists_newRootFrom {parent : RootId} (settled : Settled s)
    (ran : newRootFrom parent s = .ok r s') : Persists (fun _ => False) s s' ∧ ¬ Known s r := by
  have added := (grows_newRootFrom parent).ok ran settled.fresh
  cases entry : s.roots.lookup parent with
  | none =>
    have failed : newRootFrom parent s = .error .assertion s := bind_error (getRoot_error entry)
    exact nomatch failed.symm.trans ran
  | some root =>
    have created : newRootFrom parent s = _ := bind_ok (getRoot_ok entry)
    cases created.symm.trans ran
    have unused := settled.tabled.rootsEnd_unused
    refine ⟨⟨⟨added.fresh, settled.tabled.addRoot rfl⟩, added.keep, fun q known _ => ?_⟩, unused⟩
    have other : q ≠ s.rootsEnd := fun same => unused (same ▸ known)
    exact (lookup_setRootEntry _ _ _ q).trans (if_neg other)

end Persisting

end Epilog.Db.Persistence
