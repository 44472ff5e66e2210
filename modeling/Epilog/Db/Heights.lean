/- Module: Epilog/Db/Heights
   source: src/src/db/triedb.cpp (new_root, update, find_roots, read_roots)
   digest: The maps and the heights of all roots, over creation, updates and reopening. -/

import Epilog.Db.Roots

set_option autoImplicit false

namespace Epilog.Db.Heights

open Epilog.Lib.StateFrames Epilog.Db.Branch Epilog.Db.Store Epilog.Db.Frames
  Epilog.Db.Representation Epilog.Db.Versioned Epilog.Db.Roots

section Frame

variable {α β : Type}

/-- A computation that leaves the table of heights alone, also where it throws -/
def KeepsHeights (x : Access α) : Prop :=
  ∀ s, (stateOf (x s)).rootsAtHeight = s.rootsAtHeight

def SameHeights (s s' : Triedb) : Prop := s'.rootsAtHeight = s.rootsAtHeight

instance : IsPreorder Triedb SameHeights where
  refl _ := rfl
  trans _ _ _ first second := second.trans first

variable (P : TriedbParams)

theorem sameHeights_appendLeafNode (l : TriedbLeaf) :
    Frames SameHeights (appendLeafNode P l) :=
  fun s => (sameRoots_appendLeafNode P l s).rootsAtHeight

theorem sameHeights_setRoot (r : RootId) (offset : ℕ) : Frames SameHeights (setRoot r offset) :=
  (frames_getRoot r).bind fun _ => .withState fun _ => rfl

theorem sameHeights_modifyNumEntries (r : RootId) (f : UInt64 → UInt64) :
    Frames SameHeights (modifyNumEntries r f) :=
  (frames_getRoot r).bind fun _ _ => rfl

theorem keepsHeights_insertOrUpdate (r : RootId) (key : UInt64) (data : Bytes)
    (doInsert : Bool) : KeepsHeights (insertOrUpdate P r key data doInsert) := by
  intro s
  rw [← endOf_eq]
  exact frames_insertOrUpdate (sameHeights_appendLeafNode P) (fun _ _ => rfl)
    (sameHeights_modifyNumEntries r) (sameHeights_setRoot r) key data doInsert s

end Frame

section Holds

/-- The map and the height of every root -/
structure Holds (s : Triedb) (m : Versions) (height : RootId → Option ℕ) : Prop where
  sound : Sound s m
  tabled : Tabled s
  height : ∀ r, (s.roots.lookup r).map (·.height) = height r

variable {s : Triedb} {m : Versions} {height : RootId → Option ℕ}

theorem holds_empty : Holds {} (fun _ => none) fun _ => none :=
  ⟨sound_empty, tabled_empty, fun _ => rfl⟩

namespace Holds

theorem mem_rootsAtHeight (holds : Holds s m height) (h : ℕ) (r : RootId) :
    r ∈ s.rootsAtHeight h ↔ height r = some h := by
  rw [holds.tabled.heights, ← holds.height, Option.map_eq_some_iff]

theorem known_iff (holds : Holds s m height) (r : RootId) :
    (m r).isSome = true ↔ (height r).isSome = true := by
  rw [holds.sound.ids, ← holds.tabled.known, ← holds.height, Option.isSome_map, Known]

theorem height_of_tabled (holds : Holds s m height) {s' : Triedb} (tabled : Tabled s')
    (same : s'.rootsAtHeight = s.rootsAtHeight) (r : RootId) :
    (s'.roots.lookup r).map (·.height) = height r := by
  ext h
  rw [← holds.mem_rootsAtHeight, ← same, tabled.heights, Option.map_eq_some_iff]

variable {P : TriedbParams}

theorem newRoot (holds : Holds s m height) (atEnd : s.rootsPos = s.rootsEnd) :
    ∃ r s', Store.newRoot P s = .ok r s' ∧ m r = none ∧
      Holds s' (Function.update m r (some fun _ => none)) (Function.update height r (some 0)) := by
  obtain ⟨s₁, root, ran, grows, sound₁, id, zero, rep⟩ := newRoot_ok P holds.sound
  have same : s₁.rootsPos = s₁.rootsEnd := by
    rw [Triedb.rootsEnd, grows.rootsPos, grows.rootsFile]
    exact atEnd
  have stepped : stepRoot P s (.call .newRoot) = some (.root s₁.rootsPos,
      (writeRootAtEnd root s₁).setRootEntry s₁.rootsPos root) := by
    simp only [stepRoot, Versioned.step, perform, Functor.map, EStateM.map, ran]
  obtain ⟨tabled, -⟩ := holds.tabled.step P (fun _ => atEnd) stepped
  rw [same] at ran tabled id
  refine ⟨_, _, ran, sound₁.rootsEnd_unused, sound₁.addRoot id rep, tabled, fun r => ?_⟩
  rw [lookup_setRootEntry, Function.update_apply, ← holds.height]
  split_ifs with here
  · rw [Option.map_some, zero]
  · change (s₁.roots.lookup r).map _ = _
    rw [grows.roots]

theorem newRootFrom (holds : Holds s m height) {parent : RootId} {f : UInt64 → Option Bytes}
    {h : ℕ} (known : m parent = some f) (at' : height parent = some h) :
    ∃ r s', Store.newRootFrom parent s = .ok r s' ∧ m r = none ∧
      Holds s' (Function.update m r (some f)) (Function.update height r (some (h + 1))) := by
  obtain ⟨root, entry, -, rep⟩ := holds.sound.known parent f known
  have rootHeight : root.height = h := by
    rw [← holds.height, entry] at at'
    exact Option.some.inj at'
  have created : Store.newRootFrom parent s = _ := bind_ok (getRoot_ok entry)
  refine ⟨_, _, created, holds.sound.rootsEnd_unused,
    holds.sound.addRoot rfl (rep.mono (fun _ _ stored => stored) rfl), holds.tabled.addRoot rfl,
    fun r => ?_⟩
  rw [lookup_setRootEntry, Function.update_apply, ← holds.height]
  split_ifs with here
  · rw [Option.map_some, rootHeight]
  · rfl

theorem update (holds : Holds s m height) {r : RootId} {f : UInt64 → Option Bytes}
    (known : m r = some f) {key : UInt64} {data : Bytes} {s' : Triedb}
    (ran : Store.update P r key data s = .ok () s') :
    Holds s' (Function.update m r (some (Function.update f key (some data)))) height := by
  obtain ⟨tabled, -⟩ := (rewrites_insertOrUpdate P r key data false s holds.tabled).2 s' ran
  have same : s'.rootsAtHeight = s.rootsAtHeight := by
    have keeps := keepsHeights_insertOrUpdate P r key data false s
    have ran' : insertOrUpdate P r key data false s = .ok () s' := ran
    rwa [ran'] at keeps
  rcases insertOrUpdate_cases P holds.sound known key data false with
    ⟨impossible, _⟩ | ⟨_, s₁, failed⟩ | ⟨_, s₁, done, sound⟩
  · exact nomatch impossible
  · exact nomatch failed.symm.trans ran
  · have state := EStateM.Result.ok.inj (done.symm.trans ran)
    rw [state.2] at sound
    exact ⟨sound, tabled, holds.height_of_tabled tabled same⟩

end Holds

end Holds

section Reopening

theorem readRecords_frame (records : List TriedbRoot) (fileOffset : ℕ) (s : Triedb) :
    (readRecords records fileOffset s).nodes = s.nodes ∧
      (readRecords records fileOffset s).lastOffset = s.lastOffset ∧
      (readRecords records fileOffset s).rootsFile = s.rootsFile := by
  induction records generalizing fileOffset s with
  | nil => exact ⟨rfl, rfl, rfl⟩
  | cons record rest ih => exact ih _ _

theorem Holds.reopen {s : Triedb} {m : Versions} {height : RootId → Option ℕ}
    (holds : Holds s m height) : Holds (readRoots s) m height ∧
      (readRoots s).rootsPos = (readRoots s).rootsEnd := by
  obtain ⟨nodes, lastOffset, rootsFile⟩ := readRecords_frame s.rootsFile (VERSION_SZ + 4)
    { s with roots := [], rootsPos := VERSION_SZ + 4, rootsAtHeight := fun _ => ∅ }
  have nodes : (readRoots s).nodes = s.nodes := nodes
  have lastOffset : (readRoots s).lastOffset = s.lastOffset := lastOffset
  have rootsFile : (readRoots s).rootsFile = s.rootsFile := rootsFile
  have reopens := holds.tabled.reopens
  have atEnd : (readRoots s).rootsPos = recordPos s.rootsFile.length := reopens.pos
  have keep : ∀ p n, s.nodes p = some n → (readRoots s).nodes p = some n := by
    intro p n stored
    rw [nodes]
    exact stored
  refine ⟨⟨⟨?_, ?_, ?_, ?_, ?_⟩, ⟨?_, ?_, ?_, ?_⟩, ?_⟩, ?_⟩
  · intro p beyond
    rw [lastOffset] at beyond
    rw [nodes]
    exact holds.sound.fresh p beyond
  · intro r f here
    obtain ⟨root, entry, id, rep⟩ := holds.sound.known r f here
    refine ⟨root, ?_, id, rep.mono keep rfl⟩
    rw [reopens.roots]
    exact entry
  · intro r
    rw [rootsFile]
    exact holds.sound.ids r
  · intro r absent
    rw [reopens.roots]
    exact holds.sound.unknown r absent
  · rw [rootsFile]
    exact ⟨_, le_rfl, atEnd⟩
  · intro r
    rw [Known, reopens.roots, rootsFile]
    exact holds.tabled.known r
  · intro i record found
    rw [rootsFile] at found
    rw [reopens.roots]
    exact holds.tabled.stored i record found
  · intro h r
    rw [reopens.rootsAtHeight, reopens.roots]
    exact holds.tabled.heights h r
  · rw [rootsFile]
    exact ⟨_, le_rfl, atEnd⟩
  · intro r
    rw [reopens.roots]
    exact holds.height r
  · rw [atEnd, rootsEnd_eq, rootsFile]

end Reopening

end Epilog.Db.Heights
