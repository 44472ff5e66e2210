/- Module: Epilog/Global/ChainSelection
   source: src/src/global/blockchain.cpp (sync_point), src/src/global/blockchain.hpp (max_height)
   digest: Runs of added entries and queries: what stays, and where a sync point lies. -/

import Epilog.Global.Chains

set_option autoImplicit false

namespace Epilog.Global.ChainSelection

open Epilog.Lib.FiniteMap Epilog.Lib.Query Epilog.Global.Chains

/-- An entry added by one of the callers, or a query -/
inductive Op
  | add (e : MetaEntry)
  | follows (id : MetaId)
  | depth (maxDepth : ℕ) (id : MetaId)
  | next (id : MetaId) (maxLookahead : ℕ)
  | syncPoint (fuel : ℕ) (height : ℤ)
  | findEntries (fuel : ℕ) (height : Option ℕ) (pre : List UInt8)
  | findEntriesById (pre : List UInt8)

def Op.isAdd : Op → Bool
  | .add _ => true
  | _ => false

def answered {α : Type} (x : Query (Option α)) (s : Blockchain) : Option Blockchain :=
  (x s).1.map fun _ => (x s).2

def perform (s : Blockchain) : Op → Option Blockchain
  | .add e => s.addUnknown e
  | .follows id => some (follows id s).2
  | .depth maxDepth id => some (depth maxDepth id s).2
  | .next id maxLookahead => some (next id maxLookahead s).2
  | .syncPoint fuel height => answered (syncPoint fuel height) s
  | .findEntries fuel height pre => answered (findEntries fuel height pre) s
  | .findEntriesById pre => answered (findEntriesById pre) s

def runOps : Blockchain → List Op → Option Blockchain
  | s, [] => some s
  | s, op :: ops => (perform s op).bind fun s => runOps s ops

section Queries

def Keeps {α : Type} (x : Query α) : Prop := ∀ s, view (x s).2 = view s

theorem keeps_of_reads {α : Type} {x : Query α} {f : View → α} (reads : Reads view x f) :
    Keeps x := fun s => (reads s).2

theorem keeps_syncPoint (fuel : ℕ) (height : ℤ) : Keeps (syncPoint fuel height) := by
  intro s
  change view ((if s.atHeight.keys = ∅ then (return some 0) else _ : Query _) s).2 = _
  split
  · rfl
  · exact (reads_syncFrom fuel (absHeight s height) s).2

theorem keeps_findEntries (fuel : ℕ) (height : Option ℕ) (pre : List UInt8) :
    Keeps (findEntries fuel height pre) := by
  cases height with
  | none =>
    obtain ⟨f, reads⟩ := reads_findFrom pre fuel 0 ∅
    exact keeps_of_reads reads
  | some h =>
    exact keeps_of_reads ((reads_idsAt h).bind fun ids =>
      Reads.pure (some (ids.filter (isMatch · pre))))

theorem keeps_findEntriesById (pre : List UInt8) : Keeps (findEntriesById pre) := by
  intro s
  change view ((if pre.length ≤ 32 then _ else _ : Query _) s).2 = _
  split <;> rfl

theorem answered_view {α : Type} {x : Query (Option α)} {s s' : Blockchain} (keeps : Keeps x)
    (ran : answered x s = some s') : view s' = view s := by
  obtain ⟨_, _, rfl⟩ := Option.map_eq_some_iff.mp ran
  exact keeps s

theorem perform_view {s s' : Blockchain} {op : Op} (query : op.isAdd = false)
    (ran : perform s op = some s') : view s' = view s := by
  cases op with
  | add e => cases query
  | follows id =>
    cases ran
    exact (reads_follows id s).2
  | depth maxDepth id =>
    cases ran
    exact (reads_depth maxDepth id s).2
  | next id maxLookahead =>
    cases ran
    exact (reads_next id maxLookahead s).2
  | syncPoint fuel height => exact answered_view (keeps_syncPoint fuel height) ran
  | findEntries fuel height pre => exact answered_view (keeps_findEntries fuel height pre) ran
  | findEntriesById pre => exact answered_view (keeps_findEntriesById pre) ran

end Queries

section Added

variable {s s' : Blockchain}

theorem view_updateMetaEntry (s : Blockchain) (e : MetaEntry) :
    view (s.updateMetaEntry e) =
      { chains := s.chains.insert e.id e
        level := Function.update (view s).level e.height.toNat
          (insert e.id ((view s).level e.height.toNat)) } := by
  simp only [view, Blockchain.updateMetaEntry, View.mk.injEq, true_and]
  ext1 h
  rw [lookup_insert_ite, Function.update_apply]
  split <;> rfl

theorem addUnknown_cases {e : MetaEntry} (ran : s.addUnknown e = some s') :
    s' = s ∨ s.chains.lookup e.id = none ∧
      (e.previousId = 0 ∨ (s.chains.lookup e.previousId).isSome = true) ∧
      s' = s.updateMetaEntry e := by
  unfold Blockchain.addUnknown Blockchain.addMetaEntry at ran
  split_ifs at ran with known previous
  · cases ran
    exact .inl rfl
  · cases ran
    exact .inr ⟨by simpa [Blockchain.getMetaEntry] using known, previous, rfl⟩

theorem filed_add {e : MetaEntry} (filed : Filed (view s)) (ran : s.addUnknown e = some s') :
    Filed (view s') := by
  obtain rfl | ⟨unknown, previous, rfl⟩ := addUnknown_cases ran
  · exact filed
  rw [view_updateMetaEntry]
  refine ⟨?_, ?_, ?_⟩
  · intro id e' found
    rw [lookup_insert_ite] at found
    split_ifs at found with same
    · cases found
      exact same.symm
    · exact filed.ids id e' found
  · intro h id
    dsimp only
    rw [lookup_insert_ite, Function.update_apply]
    by_cases same : id = e.id
    · subst same
      rw [if_pos rfl]
      have absent : ∀ h, e.id ∉ (view s).level h := by
        intro h member
        obtain ⟨e', found, _⟩ := (filed.level h e.id).mp member
        rw [show (view s).chains = s.chains from rfl, unknown] at found
        cases found
      by_cases here : h = e.height.toNat
      · subst here
        simp
      · rw [if_neg here]
        constructor
        · exact fun member => absurd member (absent h)
        · rintro ⟨e', found, height⟩
          cases found
          exact absurd height.symm here
    · rw [if_neg same, ← show (view s).chains = s.chains from rfl, ← filed.level]
      split_ifs with here
      · subst here
        simp [same]
      · rfl
  · obtain ⟨rank, n, ordered⟩ := filed.ordered
    have other : ∀ id e', s.chains.lookup id = some e' → id ≠ e.id := by
      rintro id e' found rfl
      rw [unknown] at found
      cases found
    refine ⟨Function.update rank e.id n, n + 1, fun id e' found => ?_⟩
    dsimp only at found ⊢
    have before : ∀ id, (s.chains.lookup id).isSome = true →
        ((s.chains.insert e.id e).lookup id).isSome = true ∧
          Function.update rank e.id n id = rank id ∧ rank id < n := by
      intro id known
      obtain ⟨e', here⟩ := Option.isSome_iff_exists.mp known
      have distinct := other id e' here
      refine ⟨?_, Function.update_of_ne distinct _ _, (ordered id e' here).1⟩
      rw [lookup_insert_ite, if_neg distinct]
      exact known
    rw [lookup_insert_ite] at found
    split_ifs at found with same
    · cases found
      subst same
      rw [Function.update_self]
      refine ⟨n.lt_succ_self, previous.imp_right fun known => ?_⟩
      obtain ⟨still, rank_eq, below⟩ := before _ known
      exact ⟨still, by rw [rank_eq]; exact below⟩
    · obtain ⟨below, previous'⟩ := ordered id e' found
      rw [Function.update_of_ne same]
      refine ⟨by omega, previous'.imp_right fun ⟨known, less⟩ => ?_⟩
      obtain ⟨still, rank_eq, -⟩ := before _ known
      exact ⟨still, by rw [rank_eq]; exact less⟩

theorem filed_run {ops : List Op} (filed : Filed (view s)) (ran : runOps s ops = some s') :
    Filed (view s') := by
  induction ops generalizing s with
  | nil =>
    cases ran
    exact filed
  | cons op ops ih =>
    obtain ⟨s₁, stepped, rest⟩ := Option.bind_eq_some_iff.mp ran
    refine ih ?_ rest
    cases query : op.isAdd with
    | false =>
      rw [perform_view query stepped]
      exact filed
    | true =>
      cases op with
      | add e => exact filed_add filed stepped
      | _ => cases query

end Added

section Heights

variable {s s' : Blockchain}

theorem mem_keys_of_level {h : ℕ} {id : MetaId} (member : id ∈ (view s).level h) :
    h ∈ s.atHeight.keys := by
  rw [Finmap.mem_keys, Finmap.mem_iff]
  cases found : s.atHeight.lookup h with
  | some ids => exact ⟨ids, rfl⟩
  | none =>
    simp only [view, found] at member
    cases member

theorem le_maxHeight (filed : Filed (view s)) {id : MetaId} {e : MetaEntry}
    (found : s.chains.lookup id = some e) : e.height.toNat ≤ s.maxHeight := by
  have member : id ∈ (view s).level e.height.toNat := (filed.level _ id).mpr ⟨e, found, rfl⟩
  exact Finset.le_sup (f := fun h => h) (mem_keys_of_level member)

/-- Every height on file has an id. -/
def Occupied (s : Blockchain) : Prop := ∀ h ∈ s.atHeight.keys, (view s).level h ≠ ∅

theorem Occupied.add {e : MetaEntry} (occupied : Occupied s) (ran : s.addUnknown e = some s') :
    Occupied s' := by
  obtain rfl | ⟨-, -, rfl⟩ := addUnknown_cases ran
  · exact occupied
  intro h member
  rw [view_updateMetaEntry]
  dsimp only
  rw [Function.update_apply]
  split_ifs with here
  · exact Finset.insert_ne_empty _ _
  · apply occupied
    rw [Blockchain.updateMetaEntry, keys_insert, Finset.mem_insert] at member
    exact member.resolve_left here

theorem Occupied.run {ops : List Op} (occupied : Occupied s) (adds : ∀ op ∈ ops, op.isAdd = true)
    (ran : runOps s ops = some s') : Occupied s' := by
  induction ops generalizing s with
  | nil =>
    cases ran
    exact occupied
  | cons op ops ih =>
    obtain ⟨s₁, stepped, rest⟩ := Option.bind_eq_some_iff.mp ran
    refine ih ?_ (fun op' member => adds op' (List.mem_cons_of_mem op member)) rest
    have add := adds op List.mem_cons_self
    cases op with
    | add e => exact occupied.add stepped
    | _ => cases add

theorem Occupied.maxHeight_eq (occupied : Occupied s) (filed : Filed (view s))
    (nonempty : s.chains ≠ ∅) :
    ∃ id e, s.chains.lookup id = some e ∧ e.height.toNat = s.maxHeight := by
  have some_key : s.atHeight.keys.Nonempty := by
    by_contra none_filed
    rw [Finset.not_nonempty_iff_eq_empty] at none_filed
    apply nonempty
    apply Finmap.ext_lookup
    intro id
    rw [Finmap.lookup_empty]
    by_contra known
    obtain ⟨e, found⟩ := Option.ne_none_iff_exists'.mp known
    have member := mem_keys_of_level ((filed.level _ id).mpr ⟨e, found, rfl⟩)
    rw [none_filed] at member
    cases member
  obtain ⟨h, member, top⟩ := Finset.exists_mem_eq_sup _ some_key id
  have here := occupied h member
  obtain ⟨id, inside⟩ := Finset.nonempty_iff_ne_empty.mpr here
  obtain ⟨e, found, height⟩ := (filed.level h id).mp inside
  exact ⟨id, e, found, height.trans top.symm⟩

/-- From states of this view the computation files no height above `n` or `max_height`. -/
def Below {α : Type} (v : View) (n : ℕ) (x : Query α) : Prop :=
  ∀ s, view s = v → view (x s).2 = v ∧ s.maxHeight ≤ (x s).2.maxHeight ∧
    (x s).2.maxHeight ≤ max s.maxHeight n

variable {v : View} {n : ℕ}

theorem Below.pure {α : Type} (a : α) : Below v n (Pure.pure a) :=
  fun _ same => ⟨same, le_rfl, le_max_left _ _⟩

theorem Below.unchanged {α : Type} {x : Query α} (below : Below (view s) s.maxHeight x) :
    (x s).2.maxHeight = s.maxHeight := by
  obtain ⟨-, low, high⟩ := below s rfl
  rw [max_self] at high
  exact le_antisymm high low

theorem Below.bind {α β : Type} {x : Query α} {f : View → α} {k : α → Query β}
    (first : Below v n x) (reads : Reads view x f) (later : Below v n (k (f v))) :
    Below v n (x >>= k) := by
  intro s same
  obtain ⟨kept, low, high⟩ := first s same
  obtain ⟨kept', low', high'⟩ := later (x s).2 kept
  have answer := (reads s).1
  rw [same] at answer
  change view (k (x s).1 (x s).2).2 = v ∧ _ ≤ (k (x s).1 (x s).2).2.maxHeight ∧
    (k (x s).1 (x s).2).2.maxHeight ≤ _
  rw [answer]
  exact ⟨kept', low.trans low', high'.trans (max_le high (le_max_right _ _))⟩

theorem Below.foldlM {α β : Type} {step : β → α → Query β} {f : β → α → View → β} {l : List α}
    (reads : ∀ b a, Reads view (step b a) (f b a)) (each : ∀ b, ∀ a ∈ l, Below v n (step b a))
    (b : β) : Below v n (l.foldlM step b) := by
  induction l generalizing b with
  | nil => exact Below.pure b
  | cons a l ih =>
    rw [List.foldlM_cons]
    exact (each b a List.mem_cons_self).bind (reads b a)
      (ih (fun b' a' member => each b' a' (List.mem_cons_of_mem a member)) _)

theorem below_idsAt {h : ℕ} (low : h ≤ n) : Below v n (idsAt h) := by
  intro s same
  refine ⟨(reads_idsAt h s).2.trans same, ?_⟩
  unfold idsAt
  cases s.atHeight.lookup h with
  | some ids => exact ⟨le_rfl, le_max_left _ _⟩
  | none =>
    simp only [Blockchain.maxHeight, keys_insert, Finset.sup_insert, id]
    exact ⟨le_max_right _ _, max_le (low.trans (le_max_right _ _)) (le_max_left _ _)⟩

theorem below_follows {fromId : MetaId} {e : MetaEntry} (found : v.chains.lookup fromId = some e)
    (low : e.height.toNat + 1 ≤ n) : Below v n (follows fromId) := by
  intro s same
  refine ⟨(reads_follows fromId s).2.trans same, ?_⟩
  have found' : s.chains.lookup fromId = some e := by
    rw [← found, ← same]
    rfl
  have small : (e.height + 1).toNat ≤ n := by
    rw [UInt32.toNat_add]
    exact (Nat.mod_le _ _).trans low
  have call : (follows fromId s).2 = (idsAt (e.height + 1).toNat s).2 := by
    unfold follows
    simp only [bind, StateT.bind, get, getThe, MonadStateOf.get, StateT.get, pure,
      Blockchain.getMetaEntry, found']
    rfl
  rw [call]
  exact (below_idsAt small s same).2

theorem below_depth (filed : Filed v) {maxDepth : ℕ} {fromId : MetaId} {e : MetaEntry}
    (found : v.chains.lookup fromId = some e) (low : e.height.toNat + maxDepth ≤ n) :
    Below v n (depth maxDepth fromId) := by
  induction maxDepth generalizing fromId e with
  | zero => exact Below.pure 0
  | succ maxDepth ih =>
    refine (below_follows found (by omega)).bind (reads_follows fromId) ?_
    refine Below.foldlM (fun d nextId => (reads_depth maxDepth nextId).bind fun _ => Reads.pure _)
      (fun d nextId member => ?_) 0
    obtain ⟨p, c, parent, child, filed_at, -⟩ := mem_children.mp (mem_ascending.mp member)
    obtain ⟨c', child', height⟩ := (filed.level _ nextId).mp filed_at
    rw [found] at parent
    cases parent
    rw [child] at child'
    cases child'
    refine (ih child ?_).bind (reads_depth maxDepth nextId) (Below.pure _)
    rw [height, UInt32.toNat_add]
    have := Nat.mod_le (e.height.toNat + (1 : UInt32).toNat) (2 ^ 32)
    rw [show (1 : UInt32).toNat = 1 from rfl] at this ⊢
    omega

theorem below_next (filed : Filed v) {maxLookahead : ℕ} {fromId : MetaId} {e : MetaEntry}
    (found : v.chains.lookup fromId = some e) (low : e.height.toNat + maxLookahead ≤ n) :
    Below v n (next fromId maxLookahead) := by
  cases maxLookahead with
  | zero => exact Below.pure fromId
  | succ maxLookahead =>
    refine (below_follows found (by omega)).bind (reads_follows fromId) ?_
    refine Below.bind ?_ (reads_best maxLookahead _) (Below.pure _)
    refine Below.foldlM
      (fun b nextId => (reads_depth maxLookahead nextId).bind fun _ => Reads.pure _)
      (fun b nextId member => ?_) (0, 0)
    obtain ⟨p, c, parent, child, filed_at, -⟩ := mem_children.mp (mem_ascending.mp member)
    obtain ⟨c', child', height⟩ := (filed.level _ nextId).mp filed_at
    rw [found] at parent
    cases parent
    rw [child] at child'
    cases child'
    refine (below_depth filed child ?_).bind (reads_depth maxLookahead nextId) (Below.pure _)
    rw [height, UInt32.toNat_add]
    have := Nat.mod_le (e.height.toNat + (1 : UInt32).toNat) (2 ^ 32)
    rw [show (1 : UInt32).toNat = 1 from rfl] at this ⊢
    omega

end Heights

section SyncPoint

variable {s s' : Blockchain}

/-- Where a sync point starts: the first id of the greatest height up to `h` that has exactly one,
or of height 0. -/
def StartsAt (v : View) (h : ℕ) (start : MetaId) : Prop :=
  ∃ a ≤ h, (a = 0 ∨ (v.level a).card = 1) ∧ (∀ k, a < k → k ≤ h → (v.level k).card ≠ 1) ∧
    start ∈ v.level a ∧ ∀ id ∈ v.level a, start ≤ id

/-- Where it ends: at an entry that descends from the start and has no children, or two long
chains of them. -/
def EndsAt (v : View) (start r : MetaId) : Prop :=
  Descends v start r ∧ (v.chains.lookup r).isSome = true ∧
    (v.children r = ∅ ∨ 2 ≤ v.longChains (v.children r))

theorem known_of_descends (filed : Filed (view s)) {start r : MetaId} {h : ℕ}
    (member : start ∈ (view s).level h) (descends : Descends (view s) start r) :
    ((view s).chains.lookup r).isSome = true := by
  cases descends with
  | refl =>
    obtain ⟨e, found, -⟩ := (filed.level h start).mp member
    rw [found]
    rfl
  | tail _ child =>
    obtain ⟨_, c, _, found, _, _⟩ := mem_children.mp child
    rw [found]
    rfl

theorem syncPoint_ends (filed : Filed (view s)) (none_zero : s.chains.lookup 0 = none)
    (genesis : (view s).level 0 ≠ ∅) {height : ℤ}
    (inside : 0 ≤ height ∨ s.maxHeight < height.natAbs) :
    ∃ start, StartsAt (view s) height.toNat start ∧
      ((∃ r n, (∀ fuel ≥ n, (syncPoint fuel height s).1 = some r) ∧ EndsAt (view s) start r) ∨
        ∃ fork, Descends (view s) start fork ∧ StuckFork (view s) fork) := by
  have abs : absHeight s height = height.toNat := by
    unfold absHeight
    split_ifs with negative above
    · omega
    · omega
    · rfl
  obtain ⟨below, single, ambiguous⟩ := unambiguous_spec (view s) height.toNat
  have some_id : ascending ((view s).level ((view s).unambiguous height.toNat)) ≠ [] := by
    rw [Ne, ascending_eq_nil]
    rcases single with zero | one
    · rw [zero]
      exact genesis
    · intro none_filed
      rw [none_filed] at one
      cases one
  obtain ⟨start, later, ids⟩ := List.exists_cons_of_ne_nil some_id
  have member : start ∈ (view s).level ((view s).unambiguous height.toNat) :=
    mem_ascending.mp (by rw [ids]; simp)
  have smallest : ∀ id ∈ (view s).level ((view s).unambiguous height.toNat), start ≤ id := by
    intro id inside
    rw [← mem_ascending, ids] at inside
    have sorted := ascending_sorted ((view s).level ((view s).unambiguous height.toNat))
    rw [ids] at sorted
    rcases List.mem_cons.mp inside with rfl | inside
    · exact le_rfl
    · exact (List.pairwise_cons.mp sorted).1 id inside
  refine ⟨start, ⟨_, below, single, ambiguous, member, smallest⟩, ?_⟩
  by_cases stuck : ∃ fork, Descends (view s) start fork ∧ StuckFork (view s) fork
  · exact .inr stuck
  push Not at stuck
  obtain ⟨r, n, ran, descends, stops⟩ := forward_ends filed none_zero stuck
  refine .inl ⟨r, n, fun fuel large => ?_, descends, known_of_descends filed member descends, stops⟩
  have keyed : s.atHeight.keys ≠ ∅ := by
    obtain ⟨id, filed_at⟩ := Finset.nonempty_iff_ne_empty.mpr genesis
    exact Finset.ne_empty_of_mem (mem_keys_of_level filed_at)
  have call : syncPoint fuel height s = syncFrom fuel height.toNat s := by
    change (if s.atHeight.keys = ∅ then (return some 0) else _ : Query _) s = _
    rw [if_neg keyed, abs]
  rw [call]
  refine (reads_syncFrom fuel height.toNat s).1.trans ?_
  simp only [View.syncFrom, ids]
  exact ran fuel large

/-- Chain selection over all runs from the empty table: queries change no entry; `max_height` is
never below an entry, and exact while no query looks above it; and where sync points lie. -/
theorem chain_selection (ops : List Op) (s : Blockchain) (ran : runOps {} ops = some s) :
    (∀ op s', op.isAdd = false → perform s op = some s' → view s' = view s) ∧
    (∀ id e, s.chains.lookup id = some e → e.height.toNat ≤ s.maxHeight) ∧
    ((∀ op ∈ ops, op.isAdd = true) → s.chains ≠ ∅ →
      ∃ id e, s.chains.lookup id = some e ∧ e.height.toNat = s.maxHeight) ∧
    (∀ id e n, s.chains.lookup id = some e → e.height.toNat + n ≤ s.maxHeight →
      (0 < n → (follows id s).2.maxHeight = s.maxHeight) ∧
        (depth n id s).2.maxHeight = s.maxHeight ∧ (next id n s).2.maxHeight = s.maxHeight) ∧
    (∀ h pre fuel, h ≤ s.maxHeight → (findEntries fuel (some h) pre s).2.maxHeight = s.maxHeight) ∧
    (s.chains.lookup 0 = none → (view s).level 0 ≠ ∅ → ∀ height : ℤ,
      0 ≤ height ∨ s.maxHeight < height.natAbs → ∃ start, StartsAt (view s) height.toNat start ∧
        ((∃ r n, (∀ fuel ≥ n, (syncPoint fuel height s).1 = some r) ∧ EndsAt (view s) start r) ∨
          ∃ fork, Descends (view s) start fork ∧ StuckFork (view s) fork)) := by
  have filed := filed_run filed_empty ran
  refine ⟨fun op s' => perform_view, fun id e => le_maxHeight filed, ?_, ?_, ?_, ?_⟩
  · intro adds nonempty
    have occupied : Occupied {} := fun h member => by
      rw [show (({} : Blockchain).atHeight) = ∅ from rfl, Finmap.keys_empty] at member
      cases member
    exact (occupied.run adds ran).maxHeight_eq filed nonempty
  · intro id e n found low
    refine ⟨fun positive => ?_, ?_, ?_⟩
    · exact (below_follows (v := view s) found (by omega)).unchanged
    · exact (below_depth filed found low).unchanged
    · exact (below_next filed found low).unchanged
  · intro h pre fuel low
    have below : Below (view s) s.maxHeight (findEntries fuel (some h) pre) :=
      (below_idsAt low).bind (reads_idsAt h) (Below.pure _)
    exact below.unchanged
  · exact fun none_zero genesis height => syncPoint_ends filed none_zero genesis

/-- A chain of three entries. -/
def threeAdded : List Op :=
  [.add { id := 1, previousId := 0, height := 0 }, .add { id := 2, previousId := 1, height := 1 },
    .add { id := 3, previousId := 2, height := 2 }]

def three : Blockchain := (runOps {} threeAdded).getD {}

theorem runOps_three : runOps {} threeAdded = some three := by
  obtain ⟨s, ran⟩ := Option.isSome_iff_exists.mp
    (by decide : (runOps {} threeAdded).isSome = true)
  rw [three, ran]
  rfl

theorem three_selection :
    (∃ id e, three.chains.lookup id = some e ∧ e.height.toNat = three.maxHeight) ∧
      ∃ start, StartsAt (view three) 1 start ∧
        ((∃ r n, (∀ fuel ≥ n, (syncPoint fuel 1 three).1 = some r) ∧
            EndsAt (view three) start r) ∨
          ∃ fork, Descends (view three) start fork ∧ StuckFork (view three) fork) := by
  obtain ⟨-, -, exact_height, -, -, sync⟩ := chain_selection threeAdded three runOps_three
  refine ⟨exact_height (by decide) ?_, sync ?_ ?_ 1 (.inl (by decide))⟩
  · intro empty
    have known : three.chains.lookup 1 ≠ none := by decide
    rw [empty] at known
    exact known rfl
  · decide
  · decide

/-- Asking what follows the last entry raises `max_height`; the sync point for height 1 is the end
of the chain, as it goes forward from the entry there, and so is the one for one below the top. -/
theorem three_deviates : runOps {} threeAdded = some three ∧
    three.maxHeight = 2 ∧ (follows 3 three).2.maxHeight = 3 ∧
    (syncPoint 10 1 three).1 = some 3 ∧ (syncPoint 10 (-1) three).1 = some 3 ∧
    (three.chains.lookup 3).map (·.height) = some 2 := by
  refine ⟨runOps_three, ?_⟩
  decide

end SyncPoint

end Epilog.Global.ChainSelection
