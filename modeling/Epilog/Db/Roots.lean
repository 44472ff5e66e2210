/- Module: Epilog/Db/Roots
   source: src/src/db/triedb.cpp (new_root, set_root, read_roots), src/src/db/triedb.hpp
   digest: The tables of roots against the roots file, over runs of the root operations. -/

import Epilog.Db.Frames
import Epilog.Db.Versioned
import Mathlib.Data.Finset.Basic

set_option autoImplicit false

namespace Epilog.Db.Roots

open Epilog.Lib.StateFrames Epilog.Db.Branch Epilog.Db.Store Epilog.Db.Frames
  Epilog.Db.Representation Epilog.Db.Versioned

section Frame

/-- The tables of roots and the roots file are the same. -/
structure SameRoots (s s' : Triedb) : Prop where
  roots : s'.roots = s.roots
  rootsFile : s'.rootsFile = s.rootsFile
  rootsPos : s'.rootsPos = s.rootsPos
  rootsAtHeight : s'.rootsAtHeight = s.rootsAtHeight

theorem SameRoots.refl (s : Triedb) : SameRoots s s := ⟨rfl, rfl, rfl, rfl⟩

theorem SameRoots.trans {s s' s'' : Triedb} (first : SameRoots s s') (second : SameRoots s' s'') :
    SameRoots s s'' where
  roots := second.roots.trans first.roots
  rootsFile := second.rootsFile.trans first.rootsFile
  rootsPos := second.rootsPos.trans first.rootsPos
  rootsAtHeight := second.rootsAtHeight.trans first.rootsAtHeight

instance : IsPreorder Triedb SameRoots where
  refl := .refl
  trans _ _ _ := .trans

variable {α β : Type}

/-- The state after a computation, also after one that throws. -/
def stateOf : EStateM.Result Error Triedb α → Triedb
  | .ok _ s => s
  | .error _ s => s

/-- A computation that leaves the roots alone. -/
def KeepsRoots (x : Access α) : Prop := ∀ s, SameRoots s (stateOf (x s))

theorem endOf_eq (result : EStateM.Result Error Triedb α) : endOf result = stateOf result := by
  cases result <;> rfl

theorem KeepsRoots.of_frames {x : Access α} (frames : Frames SameRoots x) : KeepsRoots x :=
  fun s => endOf_eq (x s) ▸ frames s

theorem keeps_getBranch (p : ℕ) : KeepsRoots (getBranch p) := .of_frames (frames_getBranch p)

theorem keeps_getRoot (r : RootId) : KeepsRoots (getRoot r) := .of_frames (frames_getRoot r)

variable (P : TriedbParams)

theorem sameRoots_appendLeafNode (l : TriedbLeaf) : Frames SameRoots (appendLeafNode P l) := by
  intro s
  simp only [appendLeafNode]
  split <;> exact ⟨rfl, rfl, rfl, rfl⟩

theorem sameRoots_appendBranchNode (b : TriedbBranch) :
    Frames SameRoots (appendBranchNode P b) := fun _ => ⟨rfl, rfl, rfl, rfl⟩

theorem keeps_updatePart (fuel : ℕ) (node : TriedbBranch) (key : UInt64) (data : Bytes)
    (doInsert : Bool) : KeepsRoots (updatePart P fuel node key data doInsert) :=
  .of_frames (frames_updatePart (sameRoots_appendLeafNode P) (sameRoots_appendBranchNode P)
    fuel node key data doInsert)

theorem keeps_removePart (atRoot : RootId) (fuel : ℕ) (node : TriedbBranch) (key : UInt64) :
    KeepsRoots (removePart P atRoot fuel node key) :=
  .of_frames (frames_removePart (sameRoots_appendBranchNode P) atRoot fuel node key)

theorem keeps_growRoot (keyBits fuel : ℕ) (root : TriedbBranch) (ptr depth : ℕ) :
    KeepsRoots (growRoot P keyBits fuel root ptr depth) :=
  .of_frames (frames_growRoot (sameRoots_appendBranchNode P) keyBits fuel root ptr depth)

end Frame

section Tables

/-- The root is in the table. -/
def Known (s : Triedb) (r : RootId) : Prop := (s.roots.lookup r).isSome = true

/-- The tables of roots agree with the roots file. -/
structure Tabled (s : Triedb) : Prop where
  known : ∀ r, Known s r ↔ ∃ i < s.rootsFile.length, r = recordPos i
  stored : ∀ i record, s.rootsFile[i]? = some record →
    record.id = recordPos i ∧ s.roots.lookup (recordPos i) = some record
  heights : ∀ h r, r ∈ s.rootsAtHeight h ↔ ∃ root, s.roots.lookup r = some root ∧ root.height = h
  pos : ∃ i ≤ s.rootsFile.length, s.rootsPos = recordPos i

theorem tabled_empty : Tabled {} where
  known r := by
    change false = true ↔ ∃ i < 0, r = recordPos i
    simp
  stored i record found := by simp at found
  heights h r := by simp
  pos := ⟨0, le_rfl, rfl⟩

theorem SameRoots.known {s s' : Triedb} (same : SameRoots s s') (r : RootId) :
    Known s' r ↔ Known s r := by
  unfold Known
  rw [same.roots]

theorem Tabled.same {s s' : Triedb} (tabled : Tabled s) (same : SameRoots s s') : Tabled s' where
  known r := by rw [same.known, same.rootsFile, tabled.known]
  stored i record found := by
    rw [same.rootsFile] at found
    rw [same.roots]
    exact tabled.stored i record found
  heights h r := by
    rw [same.rootsAtHeight, same.roots]
    exact tabled.heights h r
  pos := by
    rw [same.rootsFile, same.rootsPos]
    exact tabled.pos

theorem Tabled.rootsEnd_unused {s : Triedb} (tabled : Tabled s) : ¬ Known s s.rootsEnd := by
  rw [tabled.known]
  rintro ⟨i, less, same⟩
  have := recordPos_injective ((rootsEnd_eq s).symm.trans same)
  omega

theorem Tabled.addRoot {s : Triedb} (tabled : Tabled s) {root : TriedbRoot}
    (id : root.id = s.rootsEnd) :
    Tabled ((writeRootAtEnd root s).setRootEntry s.rootsEnd root) := by
  have unused : s.roots.lookup s.rootsEnd = none :=
    Option.not_isSome_iff_eq_none.mp tabled.rootsEnd_unused
  have lookup : ∀ r, ((writeRootAtEnd root s).setRootEntry s.rootsEnd root).roots.lookup r =
      if r = s.rootsEnd then some root else s.roots.lookup r := fun r => lookup_setRootEntry _ _ _ r
  have file : ((writeRootAtEnd root s).setRootEntry s.rootsEnd root).rootsFile =
      s.rootsFile ++ [root] := rfl
  constructor
  · intro r
    rw [Known, lookup, file, List.length_append, List.length_singleton]
    split_ifs with here
    · exact ⟨fun _ => ⟨s.rootsFile.length, by omega, here⟩, fun _ => rfl⟩
    · rw [← Known, tabled.known]
      constructor
      · rintro ⟨i, less, rfl⟩
        exact ⟨i, by omega, rfl⟩
      · rintro ⟨i, less, rfl⟩
        rw [rootsEnd_eq] at here
        have : i ≠ s.rootsFile.length := fun equal => here (by rw [equal])
        exact ⟨i, by omega, rfl⟩
  · intro i record found
    rw [file] at found
    rw [lookup]
    rcases Nat.lt_or_ge i s.rootsFile.length with less | le
    · rw [List.getElem?_append_left less] at found
      obtain ⟨here, entry⟩ := tabled.stored i record found
      refine ⟨here, ?_⟩
      rw [if_neg, entry]
      rw [rootsEnd_eq]
      intro same
      have := recordPos_injective same
      omega
    · rw [List.getElem?_append_right le, List.getElem?_singleton] at found
      split_ifs at found with last
      have atEnd : i = s.rootsFile.length := by omega
      cases found
      rw [atEnd, ← rootsEnd_eq, if_pos rfl]
      exact ⟨id, rfl⟩
  · intro h r
    rw [lookup]
    change r ∈ Function.update s.rootsAtHeight root.height
      (insert root.id (s.rootsAtHeight root.height)) h ↔ _
    rw [Function.update_apply, id]
    split_ifs with sameHeight here here
    · rw [here]
      simp [sameHeight]
    · rw [Finset.mem_insert, sameHeight, ← tabled.heights]
      simp [here]
    · rw [tabled.heights, here, unused]
      simp [Ne.symm sameHeight]
    · exact tabled.heights h r
  · exact ⟨s.rootsFile.length + 1, by rw [file]; simp, recordPos_succ _⟩

theorem slot_recordPos (k : ℕ) :
    (recordPos k - (VERSION_SZ + 4)) / TriedbRoot.serializationSize = k := by
  simp only [recordPos, VERSION_SZ, TriedbRoot.serializationSize]
  omega

theorem Tabled.rewrite {s s' : Triedb} (tabled : Tabled s) {r : RootId} {root root' : TriedbRoot}
    (entry : s.roots.lookup r = some root) (id : root'.id = root.id)
    (height : root'.height = root.height)
    (roots : ∀ q, s'.roots.lookup q = if q = r then some root' else s.roots.lookup q)
    (file : s'.rootsFile =
      s.rootsFile.set ((root.id - (VERSION_SZ + 4)) / TriedbRoot.serializationSize) root')
    (pos : s'.rootsPos = root.id + TriedbRoot.serializationSize)
    (heights : s'.rootsAtHeight = s.rootsAtHeight) :
    Tabled s' ∧ ∀ q, Known s' q ↔ Known s q := by
  obtain ⟨k, inside, rfl⟩ := (tabled.known r).mp (by rw [Known, entry]; rfl)
  have own := tabled.stored k _ (List.getElem?_eq_getElem inside)
  rw [own.2] at entry
  obtain rfl := Option.some.inj entry
  rw [own.1, slot_recordPos] at file
  have known : ∀ q, Known s' q ↔ Known s q := by
    intro q
    rw [Known, Known, roots]
    split_ifs with here
    · rw [here, own.2]
      rfl
    · rfl
  refine ⟨⟨?_, ?_, ?_, ?_⟩, known⟩
  · intro q
    rw [known, tabled.known, file, List.length_set]
  · intro i record found
    rw [file, List.getElem?_set] at found
    rw [roots]
    split_ifs at found with here
    · subst here
      rw [Option.some.injEq] at found
      subst found
      rw [if_pos rfl]
      exact ⟨id.trans own.1, rfl⟩
    · rw [if_neg fun same => here (recordPos_injective same).symm]
      exact tabled.stored i record found
  · intro h q
    rw [heights, roots, tabled.heights]
    split_ifs with here
    · rw [here, own.2]
      simp [height]
    · rfl
  · refine ⟨k + 1, by rw [file, List.length_set]; omega, ?_⟩
    rw [pos, own.1, recordPos_succ]

end Tables

section Operations

/-- A call that throws and leaves the roots alone, or rewrites the record of a root. -/
def Rewrites (x : Access Unit) : Prop :=
  ∀ s, Tabled s → (∀ e s', x s = .error e s' → SameRoots s s') ∧
    ∀ s', x s = .ok () s' → Tabled s' ∧ ∀ r, Known s' r ↔ Known s r

theorem Rewrites.bind {α : Type} {x : Access α} {f : α → Access Unit} (first : KeepsRoots x)
    (second : ∀ a, Rewrites (f a)) : Rewrites (x >>= f) := by
  intro s tabled
  have before := first s
  simp only [Bind.bind, EStateM.bind]
  cases result : x s with
  | ok a s₁ =>
    rw [result] at before
    obtain ⟨failed, done⟩ := second a s₁ (tabled.same before)
    constructor
    · exact fun e s' thrown => before.trans (failed e s' thrown)
    · intro s' ran
      obtain ⟨tabled', known⟩ := done s' ran
      exact ⟨tabled', fun r => (known r).trans (before.known r)⟩
  | error e s₁ =>
    rw [result] at before
    constructor
    · intro e' s' thrown
      cases thrown
      exact before
    · intro s' impossible
      cases impossible

theorem Rewrites.throw (e : Error) : Rewrites (MonadExcept.throw e) := by
  intro s tabled
  constructor
  · intro e' s' thrown
    cases thrown
    exact .refl s
  · intro s' impossible
    cases impossible

theorem Rewrites.ite {c : Prop} [Decidable c] {x y : Access Unit} (yes : Rewrites x)
    (no : Rewrites y) : Rewrites (if c then x else y) := by
  split
  · exact yes
  · exact no

theorem rewrites_setRoot (r : RootId) (offset : ℕ) : Rewrites (setRoot r offset) := by
  intro s tabled
  cases entry : s.roots.lookup r with
  | none =>
    have failed : setRoot r offset s = .error .assertion s :=
      bind_error (getRoot_error entry)
    rw [failed]
    constructor
    · intro e s' thrown
      cases thrown
      exact .refl s
    · intro s' impossible
      cases impossible
  | some root =>
    have ran : setRoot r offset s = _ := bind_ok (getRoot_ok entry)
    rw [ran]
    constructor
    · intro e s' impossible
      cases impossible
    · intro s' done
      cases done
      exact tabled.rewrite entry
        (show ({ root with ptr := offset } : TriedbRoot).id = root.id from rfl) rfl
        (fun q => lookup_setRootEntry _ _ _ q) rfl rfl rfl

theorem rewrites_counted (r : RootId) (count : UInt64 → UInt64) (offset : ℕ) :
    Rewrites (do modifyNumEntries r count; setRoot r offset) := by
  intro s tabled
  cases entry : s.roots.lookup r with
  | none =>
    have failed : modifyNumEntries r count s = .error .assertion s :=
      bind_error (getRoot_error entry)
    rw [bind_error failed]
    constructor
    · intro e s' thrown
      cases thrown
      exact .refl s
    · intro s' impossible
      cases impossible
  | some root =>
    have counted : modifyNumEntries r count s = .ok ()
        (s.setRootEntry r { root with numEntries := count root.numEntries }) :=
      bind_ok (getRoot_ok entry)
    have entry' : (s.setRootEntry r { root with numEntries := count root.numEntries }).roots.lookup r
        = some { root with numEntries := count root.numEntries } := by
      rw [lookup_setRootEntry, if_pos rfl]
    have ran : setRoot r offset
        (s.setRootEntry r { root with numEntries := count root.numEntries }) = _ :=
      bind_ok (getRoot_ok entry')
    rw [bind_ok counted, ran]
    constructor
    · intro e s' impossible
      cases impossible
    · intro s' done
      cases done
      refine tabled.rewrite entry
        (show ({ root with numEntries := count root.numEntries, ptr := offset } : TriedbRoot).id =
          root.id from rfl) rfl
        (fun q => ?_) rfl rfl rfl
      rw [lookup_setRootEntry]
      simp only
      split_ifs with here
      · rfl
      · exact (lookup_setRootEntry _ _ _ q).trans (if_neg here)

variable (P : TriedbParams)

theorem rewrites_insertOrUpdate (r : RootId) (key : UInt64) (data : Bytes) (doInsert : Bool) :
    Rewrites (insertOrUpdate P r key data doInsert) := by
  unfold insertOrUpdate
  refine .bind (keeps_getRoot r) fun root => .bind (keeps_getBranch _) fun branch =>
    .bind (keeps_growRoot P _ _ _ _ _) fun grown => .bind (keeps_updatePart P _ _ _ _ _) ?_
  rintro ⟨_, ptr, newEntry⟩
  cases newEntry with
  | true => exact rewrites_counted r _ ptr
  | false => exact rewrites_setRoot r ptr

theorem rewrites_remove (r : RootId) (key : UInt64) : Rewrites (remove P r key) := by
  have keeps_get : KeepsRoots (get : Access Triedb) := fun s => .refl s
  unfold remove
  refine .bind keeps_get fun s => ?_
  cases s.roots.lookup r with
  | none => exact .throw _
  | some root =>
    refine .bind (keeps_getBranch _) fun branch => .ite (.throw _) ?_
    exact .bind (keeps_removePart P r _ _ _) fun ⟨_, ptr⟩ => rewrites_counted r _ ptr

end Operations

section Reopening

/-- The loop of `read_roots`: the id of a root is the offset of its record, and an id that is
already in the table is not replaced. -/
def readRecords : List TriedbRoot → ℕ → Triedb → Triedb
  | [], fileOffset, s => { s with rootsPos := fileOffset }
  | record :: rest, fileOffset, s =>
      let root := { record with id := fileOffset }
      readRecords rest (fileOffset + TriedbRoot.serializationSize)
        { s with
          roots := if (s.roots.lookup root.id).isSome then s.roots else (root.id, root) :: s.roots
          rootsAtHeight := Function.update s.rootsAtHeight root.height
            (Insert.insert root.id (s.rootsAtHeight root.height)) }

/-- `read_roots` of a database object that has just been opened on the same files -/
def readRoots (s : Triedb) : Triedb :=
  readRecords s.rootsFile (VERSION_SZ + 4)
    { s with roots := [], rootsPos := VERSION_SZ + 4, rootsAtHeight := fun _ => ∅ }

theorem readRecords_spec (records : List TriedbRoot) (k : ℕ) (s : Triedb)
    (own : ∀ i record, records[i]? = some record → record.id = recordPos (k + i))
    (unread : ∀ i < records.length, s.roots.lookup (recordPos (k + i)) = none) :
    (∀ r root, (readRecords records (recordPos k) s).roots.lookup r = some root ↔
      s.roots.lookup r = some root ∨ (root ∈ records ∧ root.id = r)) ∧
    (∀ h r, r ∈ (readRecords records (recordPos k) s).rootsAtHeight h ↔
      r ∈ s.rootsAtHeight h ∨ ∃ root ∈ records, root.height = h ∧ root.id = r) ∧
    (readRecords records (recordPos k) s).rootsPos = recordPos (k + records.length) := by
  induction records generalizing k s with
  | nil => simp [readRecords]
  | cons record rest ih =>
    have here : record.id = recordPos k := own 0 record rfl
    have unused : s.roots.lookup record.id = none := by
      rw [here]
      exact unread 0 (Nat.zero_lt_succ _)
    have restOwn : ∀ i other, rest[i]? = some other → other.id = recordPos (k + 1 + i) := by
      intro i other found
      rw [Nat.add_assoc, Nat.add_comm 1 i]
      exact own (i + 1) other found
    have next : readRecords (record :: rest) (recordPos k) s =
        readRecords rest (recordPos (k + 1)) { s with
          roots := (record.id, record) :: s.roots
          rootsAtHeight := Function.update s.rootsAtHeight record.height
            (Insert.insert record.id (s.rootsAtHeight record.height)) } := by
      rw [readRecords, recordPos_succ, ← here]
      simp only [unused, Option.isSome_none, Bool.false_eq_true, if_false]
    rw [next]
    obtain ⟨roots, heights, pos⟩ := ih (k + 1)
      { s with
        roots := (record.id, record) :: s.roots
        rootsAtHeight := Function.update s.rootsAtHeight record.height
          (Insert.insert record.id (s.rootsAtHeight record.height)) } restOwn (by
        intro i less
        have apart : recordPos (k + 1 + i) ≠ record.id := by
          rw [here]
          intro equal
          have := recordPos_injective equal
          omega
        have later := unread (i + 1) (Nat.succ_lt_succ less)
        rw [← Nat.add_assoc, Nat.add_right_comm] at later
        rw [List.lookup_cons, beq_false_of_ne apart]
        exact later)
    refine ⟨?_, ?_, ?_⟩
    · intro r root
      rw [roots, List.lookup_cons, List.mem_cons]
      by_cases asked : r = record.id
      · subst asked
        simp only [beq_self_eq_true, unused, Option.some.injEq, reduceCtorEq, false_or]
        constructor
        · rintro (rfl | ⟨member, id⟩)
          · exact ⟨.inl rfl, rfl⟩
          · exact ⟨.inr member, id⟩
        · rintro ⟨rfl | member, id⟩
          · exact .inl rfl
          · exact .inr ⟨member, id⟩
      · rw [beq_false_of_ne asked]
        constructor
        · rintro (old | ⟨member, id⟩)
          · exact .inl old
          · exact .inr ⟨.inr member, id⟩
        · rintro (old | ⟨rfl | member, id⟩)
          · exact .inl old
          · exact absurd id.symm asked
          · exact .inr ⟨member, id⟩
    · intro h r
      rw [heights]
      simp only [Function.update_apply, List.mem_cons, exists_eq_or_imp]
      by_cases asked : h = record.height
      · subst asked
        simp only [if_true, Finset.mem_insert, true_and, eq_comm (a := r)]
        tauto
      · rw [if_neg asked]
        simp only [Ne.symm asked, false_and, false_or]
    · rw [pos, List.length_cons]
      congr 1
      omega

/-- What is in memory is what reading the roots file again gives. -/
structure Reopens (s : Triedb) : Prop where
  heights : ∀ h r, r ∈ s.rootsAtHeight h ↔ ∃ root, s.roots.lookup r = some root ∧ root.height = h
  roots : ∀ r, (readRoots s).roots.lookup r = s.roots.lookup r
  rootsAtHeight : ∀ h, (readRoots s).rootsAtHeight h = s.rootsAtHeight h
  pos : (readRoots s).rootsPos = s.rootsEnd

theorem Tabled.lookup_iff {s : Triedb} (tabled : Tabled s) (r : RootId) (root : TriedbRoot) :
    s.roots.lookup r = some root ↔ root ∈ s.rootsFile ∧ root.id = r := by
  constructor
  · intro entry
    obtain ⟨i, inside, rfl⟩ := (tabled.known r).mp (by rw [Known, entry]; rfl)
    obtain ⟨id, stored⟩ := tabled.stored i _ (List.getElem?_eq_getElem inside)
    rw [entry] at stored
    obtain rfl := Option.some.inj stored
    exact ⟨List.getElem_mem inside, id⟩
  · rintro ⟨member, rfl⟩
    obtain ⟨i, found⟩ := List.getElem?_of_mem member
    obtain ⟨id, stored⟩ := tabled.stored i root found
    rw [id, stored]

theorem Tabled.reopens {s : Triedb} (tabled : Tabled s) : Reopens s := by
  have own : ∀ i record, s.rootsFile[i]? = some record → record.id = recordPos (0 + i) := by
    intro i record found
    rw [Nat.zero_add]
    exact (tabled.stored i record found).1
  obtain ⟨roots, heights, pos⟩ := readRecords_spec s.rootsFile 0
    { s with roots := [], rootsPos := VERSION_SZ + 4, rootsAtHeight := fun _ => ∅ } own
    fun i less => rfl
  refine ⟨tabled.heights, ?_, ?_, ?_⟩
  · intro r
    ext root
    rw [tabled.lookup_iff]
    have := roots r root
    simp only [List.lookup_nil, reduceCtorEq, false_or] at this
    exact this
  · intro h
    ext r
    rw [tabled.heights]
    have := heights h r
    simp only [Finset.notMem_empty, false_or] at this
    refine Iff.trans this ?_
    constructor
    · rintro ⟨root, member, height, id⟩
      exact ⟨root, (tabled.lookup_iff r root).mpr ⟨member, id⟩, height⟩
    · rintro ⟨root, entry, height⟩
      obtain ⟨member, id⟩ := (tabled.lookup_iff r root).mp entry
      exact ⟨root, member, height, id⟩
  · rw [Nat.zero_add] at pos
    exact pos

end Reopening

section Runs

variable (P : TriedbParams)

/-- The operations on roots, `set_root` included. -/
inductive RootOp
  | call (op : Op)
  | setRoot (id : RootId) (offset : ℕ)
  deriving DecidableEq

def stepRoot (s : Triedb) : RootOp → Option (Reply × Triedb)
  | .call op => step P s op
  | .setRoot id offset =>
      match setRoot id offset s with
      | .ok () s' => some (.done, s')
      | .error .assertion _ => none
      | .error _ s' => some (.failed, s')

/-- Along the run every new root gets an id that no root before it has got, and the tables are
those that reading the roots file again gives. -/
def IdentityKept : Triedb → Finset RootId → List RootOp → Prop
  | s, _, [] => Reopens s
  | s, issued, op :: ops => Reopens s ∧
      match stepRoot P s op with
      | none => True
      | some (.root id, s') => id ∉ issued ∧ IdentityKept s' (Insert.insert id issued) ops
      | some (_, s') => IdentityKept s' issued ops

/-- Every `new_root()` of the run finds the stream at the end of the roots file. -/
def CreatedAtEnd : Triedb → List RootOp → Prop
  | _, [] => True
  | s, op :: ops => (op = .call .newRoot → s.rootsPos = s.rootsEnd) ∧
      match stepRoot P s op with
      | none => True
      | some (_, s') => CreatedAtEnd s' ops

instance : (s : Triedb) → (ops : List RootOp) → Decidable (CreatedAtEnd P s ops)
  | _, [] => .isTrue trivial
  | s, op :: ops =>
      let decideAfter : (after : Option (Reply × Triedb)) → Decidable (match after with
          | none => True
          | some (_, s') => CreatedAtEnd P s' ops) := fun
        | none => .isTrue trivial
        | some (_, s') => instDecidableCreatedAtEnd s' ops
      @instDecidableAnd _ _ inferInstance (decideAfter (stepRoot P s op))

/-- What one operation does to the tables: the ids stay, or a new one joins. -/
def Enters (s : Triedb) (reply : Reply) (s' : Triedb) : Prop :=
  match reply with
  | .root id => ¬ Known s id ∧ ∀ r, Known s' r ↔ r = id ∨ Known s r
  | _ => ∀ r, Known s' r ↔ Known s r

theorem known_addRoot (s : Triedb) (id : RootId) (root : TriedbRoot) (r : RootId) :
    Known ((writeRootAtEnd root s).setRootEntry id root) r ↔ r = id ∨ Known s r := by
  rw [Known, lookup_setRootEntry]
  split_ifs with here
  · exact ⟨fun _ => .inl here, fun _ => rfl⟩
  · exact ⟨fun known => .inr known, fun either => either.resolve_left here⟩

theorem newRoot_named (s : Triedb) : ∃ s₁ root, SameRoots s s₁ ∧ root.id = s.rootsPos ∧
    newRoot P s = .ok s.rootsPos ((writeRootAtEnd root s₁).setRootEntry s.rootsPos root) := by
  have hasher : Frames SameRoots (branchHasher P (({} : TriedbBranch).setDepth 1)) :=
    frames_branchHasher _
  have hashed : ∃ b s₀, branchHasher P (({} : TriedbBranch).setDepth 1) s = .ok b s₀ := by
    unfold branchHasher
    split
    · exact ⟨_, _, rfl⟩
    · exact ⟨_, _, rfl⟩
  obtain ⟨b, s₀, ran⟩ := hashed
  have same : SameRoots s (appendNode P (.branch b) b.serializationSize s₀) :=
    (hasher.ok ran).trans (sameRoots_appendBranchNode P b s₀)
  refine ⟨_, { id := s.rootsPos, ptr := appendOffset P s₀.lastOffset b.serializationSize }, same,
    rfl, ?_⟩
  refine (bind_ok ran).trans ?_
  rw [← same.rootsPos]
  rfl

/-- What the caller sees of a call without a result -/
def completed (x : Access Unit) (s : Triedb) : Option (Reply × Triedb) :=
  match x s with
  | .ok () s' => some (.done, s')
  | .error .assertion _ => none
  | .error _ s' => some (.failed, s')

theorem completed_map (x : Access Unit) (s : Triedb) :
    (match ((fun _ => Reply.done) <$> x) s with
      | .ok reply s' => some (reply, s')
      | .error .assertion _ => none
      | .error _ s' => some (.failed, s')) = completed x s := by
  simp only [Functor.map, EStateM.map, completed]
  cases x s with
  | ok _ s' => rfl
  | error e s' => cases e <;> rfl

theorem Rewrites.step {x : Access Unit} (rewrites : Rewrites x) {s : Triedb} (tabled : Tabled s)
    {reply : Reply} {s' : Triedb} (ran : completed x s = some (reply, s')) :
    Tabled s' ∧ Enters s reply s' := by
  obtain ⟨failed, done⟩ := rewrites s tabled
  unfold completed at ran
  cases result : x s with
  | ok _ after =>
    rw [result] at ran
    cases ran
    exact done _ result
  | error e after =>
    rw [result] at ran
    have same := failed e after result
    cases e with
    | assertion => cases ran
    | keyAlreadyExists msg =>
      cases ran
      exact ⟨tabled.same same, same.known⟩
    | keyNotFound msg =>
      cases ran
      exact ⟨tabled.same same, same.known⟩

theorem Tabled.step {s : Triedb} (tabled : Tabled s) {op : RootOp}
    (atEnd : op = .call .newRoot → s.rootsPos = s.rootsEnd) {reply : Reply} {s' : Triedb}
    (ran : stepRoot P s op = some (reply, s')) : Tabled s' ∧ Enters s reply s' := by
  cases op with
  | setRoot id offset => exact (rewrites_setRoot id offset).step tabled ran
  | call op =>
    cases op with
    | newRoot =>
      obtain ⟨s₁, root, same, id, created⟩ := newRoot_named P s
      have stepped : stepRoot P s (.call .newRoot) =
          some (.root s.rootsPos, (writeRootAtEnd root s₁).setRootEntry s.rootsPos root) := by
        simp only [stepRoot, Versioned.step, perform, Functor.map, EStateM.map, created]
      cases stepped.symm.trans ran
      have here : s.rootsPos = s₁.rootsEnd := by
        rw [atEnd rfl, Triedb.rootsEnd, Triedb.rootsEnd, same.rootsFile]
      have tabled₁ := tabled.same same
      constructor
      · rw [here]
        exact tabled₁.addRoot (id.trans here)
      · refine ⟨?_, fun r => ?_⟩
        · rw [here, ← same.known]
          exact tabled₁.rootsEnd_unused
        · rw [known_addRoot, same.known]
    | newRootFrom parent =>
      cases entry : s.roots.lookup parent with
      | none =>
        have failed : newRootFrom parent s = .error .assertion s :=
          bind_error (getRoot_error entry)
        simp only [stepRoot, Versioned.step, perform, Functor.map, EStateM.map, failed] at ran
        cases ran
      | some root =>
        have created : newRootFrom parent s = _ := bind_ok (getRoot_ok entry)
        simp only [stepRoot, Versioned.step, perform, Functor.map, EStateM.map, created] at ran
        cases ran
        exact ⟨tabled.addRoot rfl, tabled.rootsEnd_unused, fun r => known_addRoot s _ _ r⟩
    | insert r key data =>
      exact (rewrites_insertOrUpdate P r key data true).step tabled
        ((completed_map _ s).symm.trans ran)
    | update r key data =>
      exact (rewrites_insertOrUpdate P r key data false).step tabled
        ((completed_map _ s).symm.trans ran)
    | remove r key =>
      exact (rewrites_remove P r key).step tabled ((completed_map _ s).symm.trans ran)

theorem Tabled.newRoot_collides {s : Triedb} (tabled : Tabled s)
    (behind : s.rootsPos ≠ s.rootsEnd) :
    ∃ s', stepRoot P s (.call .newRoot) = some (.root s.rootsPos, s') ∧ Known s s.rootsPos := by
  obtain ⟨s₁, root, -, -, created⟩ := newRoot_named P s
  refine ⟨(writeRootAtEnd root s₁).setRootEntry s.rootsPos root, ?_, ?_⟩
  · simp only [stepRoot, Versioned.step, perform, Functor.map, EStateM.map, created]
  · obtain ⟨i, le, here⟩ := tabled.pos
    rw [tabled.known]
    refine ⟨i, lt_of_le_of_ne le ?_, here⟩
    rintro rfl
    exact behind here

theorem Tabled.identityKept_iff {s : Triedb} (tabled : Tabled s) {issued : Finset RootId}
    (sameIds : ∀ r, r ∈ issued ↔ Known s r) (ops : List RootOp) :
    IdentityKept P s issued ops ↔ CreatedAtEnd P s ops := by
  induction ops generalizing s issued with
  | nil => exact ⟨fun _ => trivial, fun _ => tabled.reopens⟩
  | cons op ops ih =>
    rw [IdentityKept, CreatedAtEnd, and_iff_right tabled.reopens]
    by_cases atEnd : op = .call .newRoot → s.rootsPos = s.rootsEnd
    · rw [and_iff_right atEnd]
      cases ran : stepRoot P s op with
      | none => exact Iff.rfl
      | some after =>
        obtain ⟨reply, s'⟩ := after
        obtain ⟨tabled', enters⟩ := tabled.step P atEnd ran
        cases reply with
        | root id =>
          obtain ⟨unused, known⟩ := enters
          rw [← sameIds] at unused
          refine (and_iff_right unused).trans (ih tabled' fun r => ?_)
          rw [Finset.mem_insert, sameIds, known]
        | done => exact ih tabled' fun r => (sameIds r).trans (enters r).symm
        | failed => exact ih tabled' fun r => (sameIds r).trans (enters r).symm
    · refine ⟨fun kept => ?_, fun created => absurd created.1 atEnd⟩
      obtain ⟨rfl, behind⟩ := Classical.not_imp.mp atEnd
      obtain ⟨s', ran, known⟩ := tabled.newRoot_collides P behind
      rw [ran] at kept
      exact absurd ((sameIds _).mpr known) kept.1

/-- The runs of an empty database that keep the identity of the roots. -/
theorem identity_kept_iff (ops : List RootOp) :
    IdentityKept P {} ∅ ops ↔ CreatedAtEnd P {} ops :=
  tabled_empty.identityKept_iff P (fun r => by simp [Known]) ops

/-- Two roots, an insert at the first one, and a third root. -/
def reissuedRun : List RootOp :=
  [.call .newRoot, .call .newRoot, .call (.insert 20 7 [1]), .call .newRoot]

theorem third_root_reissued : ¬ IdentityKept plainParams {} ∅ reissuedRun := by
  rw [tabled_empty.identityKept_iff plainParams (fun r => by simp [Known])]
  decide

end Runs

end Epilog.Db.Roots
