/- Module: Epilog/Global/MetaExchange
   source: src/src/global/global.cpp (db_get_metas, db_put_meta, db_put_metas)
   digest: Lists of meta entries from a root on, and their way into another table. -/

import Epilog.Global.ChainSelection
import Epilog.Global.MetaTerms

set_option autoImplicit false

namespace Epilog.Global.MetaExchange

open Epilog.Lib.FiniteMap Epilog.Lib.Query Epilog.Global.Chains Epilog.Global.MetaTerms
open Epilog.Global.ChainSelection

/-- What one pass over the branches leaves: the branches, the count, the list and `has_more`. -/
structure Pass where
  branches : List MetaId
  n : ℕ
  out : List MetaId
  hasMore : Bool

/-- The loop over the branches from position `i` to `num_branches`: `done` stands before `i`,
`todo` from there on, and `pushed` behind `num_branches`. The first child takes the place of its
parent, the others are pushed, and a branch without children is erased. -/
def pass : List MetaId → List MetaId → List MetaId → ℕ → List MetaId → Bool → Query Pass
  | done, [], pushed, n, out, hasMore => return ⟨done ++ pushed, n, out, hasMore⟩
  | done, id :: todo, pushed, n, out, hasMore => do
      let follows ← follows id
      match ascending follows with
      | [] => pass done todo pushed n out hasMore
      | fid :: others =>
          pass (done ++ [fid]) todo (pushed ++ others) (n - (others.length + 1))
            (out ++ fid :: others) true

/-- The outer loop; a pass that finds more takes at least one from the count. -/
def rounds : ℕ → List MetaId → ℕ → List MetaId → Query (List MetaId)
  | 0, _, _, out => return out
  | fuel + 1, branches, n, out =>
      if n = 0 then return out
      else do
        let p ← pass [] branches [] n out false
        if p.hasMore then rounds fuel p.branches p.n p.out else return p.out

/-- The ids of the list that `db_get_metas` makes -/
def metaIds (rootId : MetaId) (n : ℕ) : Query (List MetaId) :=
  rounds (n - 1) [rootId] (n - 1) [rootId]

/-- `db_get_metas`; the entries do not change on the way. -/
def dbGetMetas (rootId : MetaId) (n : ℕ) : Query (List MetaTerm) := do
  let ids ← metaIds rootId n
  let s ← get
  return ids.map (dbGetMeta s)

/-- Computations of a node that may throw -/
abbrev Put := EStateM Failure Blockchain

variable (validatePow : MetaId → Flt1648 → PowProof → Bool)

def dbPutMeta (metaTerm : MetaTerm) : Put Bool := do
  match dbParseMeta metaTerm with
  | .error failure => throw failure
  | .ok none => return false
  | .ok (some entry) =>
      if validatePow entry.id entry.powDifficulty entry.powProof = false then throw .powCheckFailed
      else do
        let s ← get
        if entry.previousId ≠ 0 ∧ (s.getMetaEntry entry.previousId).isNone then
          throw (.missingPrevious entry.previousId)
        else do
          -- The genesis state and existing entries stay as they are.
          if entry.height > 0 ∧ (s.getMetaEntry entry.id).isNone then
            match s.addMetaEntry entry with
            | some s => set s
            | none => throw .assertion
          return true

def dbPutMetas : List MetaTerm → Put Unit
  | [] => return ()
  | m :: lst => do
      let _ ← dbPutMeta validatePow m
      dbPutMetas lst

section Listing

/-- Children come later in some order of the entries. -/
def Forest (v : View) : Prop :=
  ∃ rank : MetaId → ℕ, ∀ parent child, child ∈ v.children parent → rank parent < rank child

/-- `pass` and `rounds` on the view -/
def viewPass (v : View) :
    List MetaId → List MetaId → List MetaId → ℕ → List MetaId → Bool → Pass
  | done, [], pushed, n, out, hasMore => ⟨done ++ pushed, n, out, hasMore⟩
  | done, id :: todo, pushed, n, out, hasMore =>
      match ascending (v.children id) with
      | [] => viewPass v done todo pushed n out hasMore
      | fid :: others =>
          viewPass v (done ++ [fid]) todo (pushed ++ others) (n - (others.length + 1))
            (out ++ fid :: others) true

def viewRounds (v : View) : ℕ → List MetaId → ℕ → List MetaId → List MetaId
  | 0, _, _, out => out
  | fuel + 1, branches, n, out =>
      if n = 0 then out
      else
        let p := viewPass v [] branches [] n out false
        if p.hasMore then viewRounds v fuel p.branches p.n p.out else p.out

theorem reads_pass (done todo pushed : List MetaId) (n : ℕ) (out : List MetaId) (hasMore : Bool) :
    Reads view (pass done todo pushed n out hasMore)
      fun v => viewPass v done todo pushed n out hasMore := by
  induction todo generalizing done pushed n out hasMore with
  | nil => exact Reads.pure _
  | cons id todo ih =>
    refine (reads_follows id).bind (g := fun follows v => match ascending follows with
      | [] => viewPass v done todo pushed n out hasMore
      | fid :: others =>
          viewPass v (done ++ [fid]) todo (pushed ++ others) (n - (others.length + 1))
            (out ++ fid :: others) true) fun follows => ?_
    cases ascending follows with
    | nil => exact ih done pushed n out hasMore
    | cons fid others => exact ih _ _ _ _ _

theorem reads_rounds (fuel : ℕ) (branches : List MetaId) (n : ℕ) (out : List MetaId) :
    Reads view (rounds fuel branches n out) fun v => viewRounds v fuel branches n out := by
  induction fuel generalizing branches n out with
  | zero => exact Reads.pure out
  | succ fuel ih =>
    by_cases zero : n = 0
    · simp only [rounds, viewRounds, if_pos zero]
      exact Reads.pure out
    · simp only [rounds, viewRounds, if_neg zero]
      refine (reads_pass [] branches [] n out false).bind (g := fun p v =>
        if p.hasMore then viewRounds v fuel p.branches p.n p.out else p.out) fun p => ?_
      cases p.hasMore with
      | true => exact ih _ _ _
      | false => exact Reads.pure _

/-- The ids listed so far from a root on, and the branches to go on from. -/
structure Listed (v : View) (rootId : MetaId) (out branches : List MetaId) : Prop where
  nodup : out.Nodup
  first : out.head? = some rootId
  descends : ∀ id ∈ out, Descends v rootId id
  parents : ∀ before id after, out = before ++ id :: after →
    id = rootId ∨ ∃ e, v.chains.lookup id = some e ∧ e.previousId ∈ before
  distinct : branches.Nodup
  listed : ∀ b ∈ branches, b ∈ out
  fresh : ∀ b ∈ branches, ∀ c ∈ v.children b, c ∉ out

variable {v : View} {rootId : MetaId} {out branches : List MetaId}

theorem previous_of_child {parent child : MetaId} (member : child ∈ v.children parent) :
    ∃ e, v.chains.lookup child = some e ∧ e.previousId = parent := by
  obtain ⟨_, e, _, found, _, previous⟩ := mem_children.mp member
  exact ⟨e, found, previous⟩

theorem parent_unique {parent parent' child : MetaId} (member : child ∈ v.children parent)
    (member' : child ∈ v.children parent') : parent = parent' := by
  obtain ⟨e, found, rfl⟩ := previous_of_child member
  obtain ⟨e', found', rfl⟩ := previous_of_child member'
  rw [found] at found'
  cases found'
  rfl

theorem Listed.start (rootId : MetaId) (forest : Forest v) : Listed v rootId [rootId] [rootId] where
  nodup := List.nodup_singleton rootId
  first := rfl
  descends id member := by
    rw [List.mem_singleton] at member
    rw [member]
    exact .refl
  parents before id after split := by
    cases before with
    | nil =>
      injection split with same
      exact .inl same.symm
    | cons x before =>
      injection split with _ rest
      cases before <;> cases rest
  distinct := List.nodup_singleton rootId
  listed _ member := member
  fresh b member c child listed := by
    rw [List.mem_singleton] at member listed
    obtain ⟨rank, later⟩ := forest
    have := later b c child
    rw [member, listed] at this
    exact lt_irrefl _ this

theorem Listed.drop (inv : Listed v rootId out branches) {branches' : List MetaId}
    (sub : branches'.Sublist branches) : Listed v rootId out branches' :=
  { inv with
    distinct := inv.distinct.sublist sub
    listed := fun b member => inv.listed b (sub.subset member)
    fresh := fun b member => inv.fresh b (sub.subset member) }

theorem root_not_child (forest : Forest v) {b : MetaId} (descends : Descends v rootId b) :
    rootId ∉ v.children b := by
  obtain ⟨rank, later⟩ := forest
  have rises : rank rootId ≤ rank b := by
    induction descends with
    | refl => exact le_rfl
    | tail _ step ih => exact ih.trans (later _ _ step).le
  intro child
  exact absurd (later b rootId child) (not_lt.mpr rises)

theorem Listed.expand (inv : Listed v rootId out branches) (forest : Forest v) {id : MetaId}
    {others branches' : List MetaId} (perm : branches.Perm (id :: others))
    (perm' : branches'.Perm (ascending (v.children id) ++ others)) :
    Listed v rootId (out ++ ascending (v.children id)) branches' := by
  have id_branch : id ∈ branches := perm.mem_iff.mpr List.mem_cons_self
  have other_branch : ∀ b ∈ others, b ∈ branches :=
    fun b member => perm.mem_iff.mpr (List.mem_cons_of_mem id member)
  have id_new : id ∉ others := (List.nodup_cons.mp (perm.nodup_iff.mp inv.distinct)).1
  have kid_new : ∀ c ∈ ascending (v.children id), c ∉ out :=
    fun c member => inv.fresh id id_branch c (mem_ascending.mp member)
  refine ⟨?_, ?_, ?_, ?_, ?_, ?_, ?_⟩
  · apply List.nodup_append.mpr
    refine ⟨inv.nodup, ascending_nodup _, fun c listed c' member same => ?_⟩
    rw [same] at listed
    exact kid_new c' member listed
  · rw [List.head?_append, inv.first]
    rfl
  · intro c member
    rcases List.mem_append.mp member with listed | kid
    · exact inv.descends c listed
    · exact .tail (inv.descends id (inv.listed id id_branch)) (mem_ascending.mp kid)
  · intro before c after split
    have of_kid : c ∈ ascending (v.children id) → (∀ x ∈ out, x ∈ before) →
        c = rootId ∨ ∃ e, v.chains.lookup c = some e ∧ e.previousId ∈ before := by
      intro kid sub
      obtain ⟨e, found, rfl⟩ := previous_of_child (mem_ascending.mp kid)
      exact .inr ⟨e, found, sub _ (inv.listed _ id_branch)⟩
    rcases List.append_eq_append_iff.mp split with ⟨kids, rfl, kids_eq⟩ | ⟨rest, out_eq, rest_eq⟩
    · exact of_kid (by rw [kids_eq]; simp) fun x listed => List.mem_append_left _ listed
    · cases rest with
      | nil =>
        rw [List.nil_append] at rest_eq
        rw [List.append_nil] at out_eq
        exact of_kid (by rw [← rest_eq]; simp) fun x listed => out_eq ▸ listed
      | cons x rest =>
        injection rest_eq with head _
        subst head
        exact inv.parents before c rest out_eq
  · rw [perm'.nodup_iff]
    apply List.nodup_append.mpr
    refine ⟨ascending_nodup _, (List.nodup_cons.mp (perm.nodup_iff.mp inv.distinct)).2, ?_⟩
    rintro c kid b member rfl
    exact kid_new c kid (inv.listed c (other_branch c member))
  · intro b member
    rcases List.mem_append.mp (perm'.mem_iff.mp member) with kid | other
    · exact List.mem_append_right _ kid
    · exact List.mem_append_left _ (inv.listed b (other_branch b other))
  · intro b member c child listed
    rcases List.mem_append.mp (perm'.mem_iff.mp member) with kid | other
    · rcases List.mem_append.mp listed with listed | kid'
      · obtain ⟨before, after, split⟩ := List.append_of_mem listed
        rcases inv.parents before c after split with rfl | ⟨e, found, previous⟩
        · exact root_not_child forest (.tail (inv.descends id (inv.listed id id_branch))
            (mem_ascending.mp kid)) child
        · obtain ⟨e', found', rfl⟩ := previous_of_child child
          rw [found] at found'
          cases found'
          exact kid_new _ kid (by rw [split]; exact List.mem_append_left _ previous)
      · have same := parent_unique child (mem_ascending.mp kid')
        subst same
        exact kid_new b kid (inv.listed b id_branch)
    · rcases List.mem_append.mp listed with listed | kid'
      · exact inv.fresh b (other_branch b other) c child listed
      · have same := parent_unique child (mem_ascending.mp kid')
        subst same
        exact id_new other

theorem Listed.pass (forest : Forest v) (done todo pushed : List MetaId)
    (inv : Listed v rootId out (done ++ todo ++ pushed)) (n : ℕ) (hasMore : Bool) :
    Listed v rootId (viewPass v done todo pushed n out hasMore).out
      (viewPass v done todo pushed n out hasMore).branches := by
  induction todo generalizing done pushed n out hasMore with
  | nil =>
    rw [List.append_nil] at inv
    exact inv
  | cons id todo ih =>
    rw [viewPass]
    have perm : (done ++ id :: todo ++ pushed).Perm (id :: (done ++ todo ++ pushed)) := by
      rw [List.append_assoc, List.cons_append, List.append_assoc]
      exact List.perm_middle
    split
    case h_1 children =>
      refine ih _ _ (inv.drop ?_) n hasMore
      exact ((List.sublist_cons_self id todo).append_left done).append_right pushed
    case h_2 fid others children =>
      refine ih _ _ ?_ _ true
      rw [← children]
      refine inv.expand forest perm ?_
      rw [children]
      have kids : (done ++ [fid] ++ todo ++ (pushed ++ others)).Perm
          (fid :: others ++ (done ++ todo ++ pushed)) := by
        apply List.perm_iff_count.mpr
        intro a
        simp only [List.count_append, List.count_cons, List.count_nil]
        omega
      exact kids

theorem Listed.rounds (forest : Forest v) (fuel : ℕ) (inv : Listed v rootId out branches) (n : ℕ) :
    ∃ branches', Listed v rootId (viewRounds v fuel branches n out) branches' := by
  induction fuel generalizing branches n out with
  | zero => exact ⟨branches, inv⟩
  | succ fuel ih =>
    have passed := Listed.pass forest [] branches []
      (by rwa [List.nil_append, List.append_nil]) n false
    rw [viewRounds]
    dsimp only
    split_ifs
    · exact ⟨branches, inv⟩
    · exact ih passed _
    · exact ⟨_, passed⟩

theorem viewPass_n (done todo pushed : List MetaId) (n : ℕ) (out : List MetaId) (hasMore : Bool) :
    (viewPass v done todo pushed n out hasMore).n ≤ n ∧
      ((viewPass v done todo pushed n out hasMore).hasMore = true → hasMore = false →
        (viewPass v done todo pushed n out hasMore).n ≤ n - 1) := by
  induction todo generalizing done pushed n out hasMore with
  | nil =>
    refine ⟨le_rfl, fun more none_before => ?_⟩
    change hasMore = true at more
    rw [none_before] at more
    cases more
  | cons id todo ih =>
    rw [viewPass]
    split
    · exact ih done pushed n out hasMore
    case h_2 fid others _ =>
      have first := (ih (done ++ [fid]) (pushed ++ others) (n - (others.length + 1))
        (out ++ fid :: others) true).1
      exact ⟨by omega, fun _ _ => by omega⟩

theorem viewRounds_enough (fuel fuel' : ℕ) (branches : List MetaId) (n : ℕ) (out : List MetaId)
    (enough : n ≤ fuel) (enough' : n ≤ fuel') :
    viewRounds v fuel branches n out = viewRounds v fuel' branches n out := by
  induction fuel generalizing fuel' branches n out with
  | zero =>
    obtain rfl : n = 0 := by omega
    cases fuel' <;> rfl
  | succ fuel ih =>
    by_cases zero : n = 0
    · subst zero
      cases fuel' <;> rfl
    · obtain ⟨fuel', rfl⟩ := Nat.exists_eq_add_of_le' (show 1 ≤ fuel' by omega)
      have counted := (viewPass_n (v := v) [] branches [] n out false).2
      simp only [viewRounds, if_neg zero]
      split_ifs with more
      · have less := counted more rfl
        exact ih fuel' _ _ _ (by omega) (by omega)
      · rfl

end Listing

section Receiving

variable {validatePow}

/-- The term of the entry is read, and what is read passes the proof-of-work check. -/
def Taken (validatePow : MetaId → Flt1648 → PowProof → Bool) (e : MetaEntry) : Prop :=
  ∃ e', dbParseMeta (metaTerm e) = .ok (some e') ∧
    validatePow e'.id e'.powDifficulty e'.powProof = true

/-- An exception for another reason than a missing previous entry -/
def Refused (failure : Failure) : Prop := ∀ id, failure ≠ .missingPrevious id

theorem dbPutMeta_of_error {m : MetaTerm} {failure : Failure} (r : Blockchain)
    (failed : dbParseMeta m = .error failure) :
    dbPutMeta validatePow m r = .error failure r := by
  rw [dbPutMeta, failed]
  rfl

theorem dbPutMeta_of_ok (validatePow : MetaId → Flt1648 → PowProof → Bool) {m : MetaTerm} {e : MetaEntry} {r : Blockchain}
    (read : dbParseMeta m = .ok (some e))
    (previous : e.previousId = 0 ∨ (r.chains.lookup e.previousId).isSome = true) :
    dbPutMeta validatePow m r =
      if validatePow e.id e.powDifficulty e.powProof = false then .error .powCheckFailed r
      else .ok true
        (if e.height > 0 ∧ (r.getMetaEntry e.id).isNone then r.updateMetaEntry e else r) := by
  rw [dbPutMeta, read]
  dsimp only
  split
  · rfl
  have found : ¬ (e.previousId ≠ 0 ∧ (r.getMetaEntry e.previousId).isNone = true) := by
    rintro ⟨nonzero, missing⟩
    have known := previous.resolve_left nonzero
    rw [Blockchain.getMetaEntry, Option.isNone_iff_eq_none] at missing
    rw [missing] at known
    cases known
  have added : r.addMetaEntry e = some (r.updateMetaEntry e) := if_pos previous
  change (if e.previousId ≠ 0 ∧ (r.getMetaEntry e.previousId).isNone = true then _ else _ :
    Put Bool) r = _
  rw [if_neg found]
  split_ifs
  · rw [added]
    rfl
  · rfl

theorem dbPutMeta_arrives (validatePow : MetaId → Flt1648 → PowProof → Bool) {m : MetaTerm} {r : Blockchain} {e : MetaEntry}
    (back : (∃ failure, dbParseMeta m = .error failure ∧ Refused failure) ∨
      ∃ e', dbParseMeta m = .ok (some e') ∧ ReadAs e e')
    (previous : e.previousId = 0 ∨ (r.chains.lookup e.previousId).isSome = true) :
    (∃ failure, dbPutMeta validatePow m r = .error failure r ∧ Refused failure ∧
      ¬ ∃ e', dbParseMeta m = .ok (some e') ∧
        validatePow e'.id e'.powDifficulty e'.powProof = true) ∨
    ∃ e', ReadAs e e' ∧ dbPutMeta validatePow m r = .ok true
      (if e.height > 0 ∧ (r.getMetaEntry e.id).isNone then r.updateMetaEntry e' else r) := by
  rcases back with ⟨failure, failed, refused⟩ | ⟨e', read, same⟩
  · refine .inl ⟨failure, dbPutMeta_of_error r failed, refused, ?_⟩
    rintro ⟨e', read, -⟩
    rw [failed] at read
    cases read
  · have put := dbPutMeta_of_ok validatePow read
      (by rw [same.previousId]; exact previous)
    rw [same.height, same.id] at put
    by_cases invalid : validatePow e.id e'.powDifficulty e'.powProof = false
    · rw [if_pos invalid] at put
      refine .inl ⟨.powCheckFailed, put, fun _ => nofun, ?_⟩
      rintro ⟨e'', read', valid⟩
      rw [read] at read'
      cases read'
      rw [same.id, invalid] at valid
      cases valid
    · rw [if_neg invalid] at put
      exact .inr ⟨e', same, put⟩

/-- What a node knows when it had `r₀` and has received these entries of `s`. -/
def Received (s r₀ : Blockchain) (ids : List MetaId) (r : Blockchain) : Prop :=
  ∀ id, (∃ e, r₀.chains.lookup id = some e ∧ r.chains.lookup id = some e) ∨
    r₀.chains.lookup id = none ∧
      ((id ∈ ids ∧ ∃ e e', s.chains.lookup id = some e ∧ r.chains.lookup id = some e' ∧
        ReadAs e e') ∨ id ∉ ids ∧ r.chains.lookup id = none)

theorem Received.start (s r₀ : Blockchain) : Received s r₀ [] r₀ := by
  intro id
  cases found : r₀.chains.lookup id with
  | none => exact .inr ⟨rfl, .inr ⟨by simp, rfl⟩⟩
  | some e => exact .inl ⟨e, rfl, rfl⟩

variable {s r₀ r : Blockchain} {ids before : List MetaId}

theorem Received.known (received : Received s r₀ before r) {id : MetaId}
    (member : id ∈ before ∨ (r₀.chains.lookup id).isSome = true) :
    (r.chains.lookup id).isSome = true := by
  rcases received id with ⟨e, _, here⟩ | ⟨unknown, ⟨_, _, _, _, here, _⟩ | ⟨absent, _⟩⟩
  · rw [here]
    rfl
  · rw [here]
    rfl
  · rcases member with member | known
    · exact absurd member absent
    · rw [unknown] at known
      cases known

theorem Received.next (received : Received s r₀ before r) {id : MetaId} {e e' : MetaEntry}
    (found : s.chains.lookup id = some e) (id_eq : e.id = id) (same : ReadAs e e')
    (low : e.height = 0 → (r₀.chains.lookup id).isSome = true) :
    Received s r₀ (before ++ [id])
      (if e.height > 0 ∧ (r.getMetaEntry e.id).isNone then r.updateMetaEntry e' else r) := by
  have id_eq' : e'.id = id := same.id.trans id_eq
  intro k
  by_cases here : k = id
  · subst here
    rcases received k with ⟨e₀, old, now⟩ | ⟨unknown, listed | ⟨absent, now⟩⟩
    · refine .inl ⟨e₀, old, ?_⟩
      rw [if_neg, now]
      rintro ⟨-, none_known⟩
      rw [id_eq, Blockchain.getMetaEntry, now] at none_known
      cases none_known
    · refine .inr ⟨unknown, .inl ⟨by simp, ?_⟩⟩
      obtain ⟨_, e₁, e₂, found', now, same'⟩ := listed
      refine ⟨e₁, e₂, found', ?_, same'⟩
      rw [if_neg, now]
      rintro ⟨-, none_known⟩
      rw [id_eq, Blockchain.getMetaEntry, now] at none_known
      cases none_known
    · refine .inr ⟨unknown, .inl ⟨by simp, e, e', found, ?_, same⟩⟩
      have positive : e.height > 0 := by
        rw [gt_iff_lt, UInt32.pos_iff_ne_zero]
        intro zero
        have known := low zero
        rw [unknown] at known
        cases known
      have fresh : (r.getMetaEntry e.id).isNone = true := by
        rw [id_eq, Blockchain.getMetaEntry, now]
        rfl
      rw [if_pos ⟨positive, fresh⟩, Blockchain.updateMetaEntry, lookup_insert_ite, id_eq',
        if_pos rfl]
  · have kept : (if e.height > 0 ∧ (r.getMetaEntry e.id).isNone then r.updateMetaEntry e'
        else r).chains.lookup k = r.chains.lookup k := by
      split_ifs
      · rw [Blockchain.updateMetaEntry, lookup_insert_ite, id_eq', if_neg here]
      · rfl
    rw [kept]
    rcases received k with known | ⟨unknown, ⟨member, listed⟩ | ⟨absent, now⟩⟩
    · exact .inl known
    · exact .inr ⟨unknown, .inl ⟨List.mem_append_left _ member, listed⟩⟩
    · refine .inr ⟨unknown, .inr ⟨?_, now⟩⟩
      rw [List.mem_append, List.mem_singleton, not_or]
      exact ⟨absent, here⟩

/-- What a run over the list ends in: all entries received, or one of them not taken. -/
def Outcome (validatePow : MetaId → Flt1648 → PowProof → Bool) (s r₀ : Blockchain)
    (ids : List MetaId) (result : EStateM.Result Failure Blockchain Unit) : Prop :=
  (∃ r, result = .ok () r ∧ Received s r₀ ids r) ∨
    ∃ failure r, result = .error failure r ∧ Refused failure ∧
      ∃ id ∈ ids, ∃ e, s.chains.lookup id = some e ∧ ¬ Taken validatePow e

theorem dbPutMetas_outcome {rootId : MetaId} {root : MetaEntry}
    (ids_eq : ∀ id e, s.chains.lookup id = some e → e.id = id)
    (rooted : s.chains.lookup rootId = some root)
    (parents : ∀ before id after, ids = before ++ id :: after →
      id = rootId ∨ ∃ e, s.chains.lookup id = some e ∧ e.previousId ∈ before)
    (parent : root.previousId = 0 ∨ (r₀.chains.lookup root.previousId).isSome = true)
    (low : ∀ id ∈ ids, ∀ e, s.chains.lookup id = some e → e.height = 0 →
      (r₀.chains.lookup id).isSome = true)
    (before : List MetaId) {after : List MetaId} (split : ids = before ++ after) {r : Blockchain}
    (received : Received s r₀ before r) :
    Outcome validatePow s r₀ ids (dbPutMetas validatePow (after.map (dbGetMeta s)) r) := by
  induction after generalizing before r with
  | nil =>
    rw [List.append_nil] at split
    subst split
    exact .inl ⟨r, rfl, received⟩
  | cons id after ih =>
    have member : id ∈ ids := by
      rw [split]
      simp
    have entry : ∃ e, s.chains.lookup id = some e ∧
        (e.previousId = 0 ∨ (r.chains.lookup e.previousId).isSome = true) := by
      rcases parents before id after split with rfl | ⟨e, found, earlier⟩
      · exact ⟨root, rooted, parent.imp_right fun known => received.known (.inr known)⟩
      · exact ⟨e, found, .inr (received.known (.inl earlier))⟩
    obtain ⟨e, found, previous⟩ := entry
    have term : dbGetMeta s id = metaTerm e := by
      rw [dbGetMeta, Blockchain.getMetaEntry, found]
    have back := read_back e
    have taken : Taken validatePow e ↔ ∃ e', dbParseMeta (dbGetMeta s id) = .ok (some e') ∧
        validatePow e'.id e'.powDifficulty e'.powProof = true := by
      rw [term, Taken]
    rw [← term] at back
    rw [List.map_cons]
    generalize dbGetMeta s id = m at back taken
    rcases dbPutMeta_arrives validatePow back previous with
      ⟨failure, failed, refused, not_taken⟩ | ⟨e', same, put⟩
    · refine .inr ⟨failure, r, ?_, refused, id, member, e, found, taken.not.mpr not_taken⟩
      simp only [dbPutMetas, bind, EStateM.bind, failed]
    · have next := received.next found (ids_eq id e found) same (low id member e found)
      have rest := ih (before ++ [id]) (by rw [split]; simp) next
      have call : dbPutMetas validatePow (m :: after.map (dbGetMeta s)) r =
          dbPutMetas validatePow (after.map (dbGetMeta s))
            (if e.height > 0 ∧ (r.getMetaEntry e.id).isNone then r.updateMetaEntry e' else r) := by
        simp only [dbPutMetas, bind, EStateM.bind, put]
      rw [call]
      exact rest

/-- The list of `db_get_metas` from a known root on goes over descendants of the root, each at most
once and after its previous entry; put at a node that knows the previous entry of the root and the
listed entries of height 0, it adds the listed entries, or one of them is not taken. -/
theorem meta_exchange (s : Blockchain) (filed : Filed (view s)) (forest : Forest (view s))
    (rootId : MetaId) (root : MetaEntry) (rooted : s.chains.lookup rootId = some root) (n : ℕ) :
    view (dbGetMetas rootId n s).2 = view s ∧
    ∃ ids, (dbGetMetas rootId n s).1 = ids.map (dbGetMeta s) ∧
      ids.head? = some rootId ∧ ids.Nodup ∧ (∀ id ∈ ids, Descends (view s) rootId id) ∧
      (∀ before id after, ids = before ++ id :: after →
        id = rootId ∨ ∃ e, s.chains.lookup id = some e ∧ e.previousId ∈ before) ∧
      ∀ r₀ : Blockchain,
        (root.previousId = 0 ∨ (r₀.chains.lookup root.previousId).isSome = true) →
        (∀ id ∈ ids, ∀ e, s.chains.lookup id = some e → e.height = 0 →
          (r₀.chains.lookup id).isSome = true) →
        Outcome validatePow s r₀ ids
          (dbPutMetas validatePow (dbGetMetas rootId n s).1 r₀) := by
  have reads := reads_rounds (n - 1) [rootId] (n - 1) [rootId] s
  obtain ⟨branches, listed⟩ := (Listed.start rootId forest).rounds forest (n - 1) (n - 1)
  have answer : (dbGetMetas rootId n s).1 =
      (viewRounds (view s) (n - 1) [rootId] (n - 1) [rootId]).map (dbGetMeta s) := by
    have chains : (metaIds rootId n s).2.chains = s.chains := congrArg View.chains reads.2
    change ((metaIds rootId n s).1).map (dbGetMeta (metaIds rootId n s).2) = _
    have same : dbGetMeta (metaIds rootId n s).2 = dbGetMeta s := by
      ext1 id
      rw [dbGetMeta, dbGetMeta, Blockchain.getMetaEntry, Blockchain.getMetaEntry, chains]
    rw [same]
    exact congrArg _ reads.1
  refine ⟨reads.2, _, answer, listed.first, listed.nodup, listed.descends, listed.parents, ?_⟩
  intro r₀ parent low
  rw [answer]
  exact dbPutMetas_outcome filed.ids rooted listed.parents parent low [] rfl
    (Received.start s r₀)

theorem forest_of_filed {v : View} (filed : Filed v) (none_zero : v.chains.lookup 0 = none) :
    Forest v := by
  obtain ⟨rank, n, ordered⟩ := filed.ordered
  refine ⟨rank, fun parent child member => ?_⟩
  obtain ⟨p, c, known, found, _, rfl⟩ := mem_children.mp member
  have nonzero : c.previousId ≠ 0 := by
    intro zero
    rw [zero, none_zero] at known
    cases known
  exact ((ordered child c found).2.resolve_left nonzero).2

end Receiving

section Exchanged

/-- A node with the first entry only -/
def genesisOnly : Blockchain :=
  (runOps {} [.add { id := 1, previousId := 0, height := 0 }]).getD {}

/-- The exception of a run -/
def failureOf {α : Type} : EStateM.Result Failure Blockchain α → Option Failure
  | .ok _ _ => none
  | .error failure _ => some failure

/-- The chain of three entries, listed from its first one and put at a node that has this one. -/
theorem three_exchanged : ∃ ids, (dbGetMetas 1 10 three).1 = ids.map (dbGetMeta three) ∧
    Outcome (fun _ _ _ => true) three genesisOnly ids
      (dbPutMetas (fun _ _ _ => true) (dbGetMetas 1 10 three).1 genesisOnly) := by
  have filed := filed_run filed_empty runOps_three
  have none_zero : (view three).chains.lookup 0 = none := by decide
  obtain ⟨root, rooted⟩ := Option.isSome_iff_exists.mp
    (by decide : (three.chains.lookup 1).isSome = true)
  obtain ⟨-, ids, answer, -, -, -, -, put⟩ := @meta_exchange (fun _ _ _ => true)
    three filed (forest_of_filed filed none_zero) 1 root rooted 10
  refine ⟨ids, answer, put genesisOnly (.inl ?_) ?_⟩
  · have first : (three.chains.lookup 1).map (·.previousId) = some 0 := by decide
    rw [rooted] at first
    exact Option.some.inj first
  · intro id _ e found low
    have inside : id ∈ three.chains.keys := by
      rw [Finmap.mem_keys, Finmap.mem_iff]
      exact ⟨e, found⟩
    have keys : three.chains.keys = {1, 2, 3} := by decide
    have heights : (three.chains.lookup 2).map (·.height) = some 1 ∧
        (three.chains.lookup 3).map (·.height) = some 2 := by decide
    rw [keys, Finset.mem_insert, Finset.mem_insert, Finset.mem_singleton] at inside
    rcases inside with rfl | rfl | rfl
    · decide
    · rw [found, Option.map_some, low] at heights
      exact absurd heights.1 (by decide)
    · rw [found, Option.map_some, low] at heights
      exact absurd heights.2 (by decide)

/-- A node without the first entry does not take it and misses it for the second; and a node that
refuses the proof of work adds nothing. -/
theorem three_refused :
    failureOf (dbPutMetas (fun _ _ _ => true) (dbGetMetas 1 10 three).1 {}) =
      some (.missingPrevious 1) ∧
    failureOf (dbPutMetas (fun _ _ _ => false) (dbGetMetas 1 10 three).1 genesisOnly) =
      some .powCheckFailed := by
  constructor <;> decide

end Exchanged

end Epilog.Global.MetaExchange
