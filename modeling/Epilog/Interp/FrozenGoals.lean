/- Module: Epilog/Interp/FrozenGoals
   source: none (proofs about Epilog/Interp/Coroutines)
   digest: Where frozen goals are found, and what a choice point keeps of them. -/

import Epilog.Interp.Coroutines

set_option autoImplicit false

namespace Epilog.Interp.Coroutines

open Epilog.Common.Term Epilog.Common.TermWalk Epilog.Common.Unify Epilog.Common.Forwarding
  Epilog.Lib.FiniteMap Epilog.Interp.Backtracking

section Cells

/-- Two cells are the same, or both unbound variables, watched or not. -/
def Agrees (mem mem' : ℕ → Cell) (x : ℕ) : Prop := mem' x = mem x ∨ IsVar mem x ∧ IsVar mem' x

/-- References stay references to the same cell, watched or not. -/
def Refers (mem mem' : ℕ → Cell) (x : ℕ) : Prop :=
  mem' x = mem x ∨ (mem x).tag.isRef = true ∧ (mem' x).tag.isRef = true ∧
    (mem' x).index = (mem x).index

variable {mem mem' mem'' : ℕ → Cell} {x : ℕ}

theorem Agrees.refers (agrees : Agrees mem mem' x) : Refers mem mem' x :=
  agrees.imp_right fun vars => ⟨vars.1.1, vars.2.1, vars.2.2.trans vars.1.2.symm⟩

theorem Refers.isVar_iff (refers : Refers mem mem' x) : IsVar mem' x ↔ IsVar mem x := by
  rcases refers with same | ⟨isRef, isRef', index⟩
  · rw [IsVar, same, IsVar]
  · rw [IsVar, IsVar, index]
    exact and_congr_left fun _ => iff_of_true isRef' isRef

theorem Refers.isRef (refers : Refers mem mem' x) : (mem' x).tag.isRef = (mem x).tag.isRef := by
  rcases refers with same | ⟨isRef, isRef', _⟩
  · rw [same]
  · rw [isRef, isRef']

theorem Refers.index (refers : Refers mem mem' x) : (mem' x).index = (mem x).index := by
  rcases refers with same | ⟨_, _, index⟩
  · rw [same]
  · exact index

theorem Refers.trans (first : Refers mem mem' x) (later : Refers mem' mem'' x) :
    Refers mem mem'' x := by
  rcases later with same | ⟨isRef, isRef', index⟩
  · rw [Refers, same]
    exact first
  · exact .inr ⟨first.isRef.symm.trans isRef, isRef', index.trans first.index⟩

theorem isRef_of_watched {c : Cell} (watched : c.tag = .RFW) : c.tag.isRef = true := by
  rw [watched]
  rfl

theorem Agrees.reset (isVar : IsVar mem x) (same : mem' x = Cell.make .REF x) :
    Agrees mem mem' x := by
  refine .inr ⟨isVar, ?_⟩
  rw [IsVar, same, Cell.tag_make, Cell.index, Cell.value_make_of_lt _ ?_]
  · exact ⟨rfl, rfl⟩
  · rw [← isVar.2]
    exact Cell.value_lt _

theorem heapWatch_of_ne {addr : ℕ} (value : Bool) (other : x ≠ addr) :
    heapWatch mem addr value x = mem x := by
  unfold heapWatch
  split_ifs
  · exact Function.update_of_ne other ..
  · exact Function.update_of_ne other ..
  · rfl

theorem heapWatch_refers (addr : ℕ) (value : Bool) : Refers mem (heapWatch mem addr value) x := by
  by_cases here : x = addr
  · subst here
    unfold heapWatch
    split_ifs with plain watched
    · refine .inr ⟨by rw [plain.1]; rfl, ?_, ?_⟩
      · rw [Function.update_self, Cell.tag_make]
        rfl
      · rw [Function.update_self]
        exact Cell.value_make_of_lt _ (Cell.value_lt _)
    · refine .inr ⟨isRef_of_watched watched.1, ?_, ?_⟩
      · rw [Function.update_self, Cell.tag_make]
        rfl
      · rw [Function.update_self]
        exact Cell.value_make_of_lt _ (Cell.value_lt _)
    · exact .inl rfl
  · exact .inl (heapWatch_of_ne value here)

theorem heapWatch_agrees {addr : ℕ} (value : Bool) (isVar : IsVar mem addr) (x : ℕ) :
    Agrees mem (heapWatch mem addr value) x := by
  by_cases here : x = addr
  · subst here
    exact .inr ⟨isVar, (heapWatch_refers x value).isVar_iff.2 isVar⟩
  · exact .inl (heapWatch_of_ne value here)

theorem heapWatch_tag {addr : ℕ} (isRef : (mem addr).tag.isRef = true) :
    (heapWatch mem addr true addr).tag = .RFW := by
  unfold heapWatch
  by_cases plain : (mem addr).tag = .REF
  · rw [if_pos ⟨plain, rfl⟩, Function.update_self, Cell.tag_make]
  · rw [if_neg (fun both => plain both.1), if_neg (fun both => nomatch both.2)]
    unfold Tag.isRef at isRef
    rw [decide_eq_true_eq] at isRef
    exact isRef.resolve_left plain

theorem heapWatch_notRef {addr : ℕ} (value : Bool) (notRef : (mem addr).tag.isRef = false) :
    heapWatch mem addr value = mem := by
  unfold heapWatch
  rw [if_neg, if_neg]
  · rintro ⟨watched, _⟩
    rw [watched] at notRef
    exact nomatch notRef
  · rintro ⟨plain, _⟩
    rw [plain] at notRef
    exact nomatch notRef

end Cells

section Sound

/-- The closures are those of the goals that are pending, each at an address that the variable of
the goal leads to. -/
def Held (s : Interpreter) (pending : List (ℕ × Cell)) : Prop :=
  ∃ goals : List (ℕ × ℕ × Cell), pending = goals.map (fun x => (x.1, x.2.2)) ∧
    (goals.map fun x => x.2.1).Nodup ∧
    (∀ k g, s.closures.lookup k = some g ↔ ∃ v, (v, k, g) ∈ goals) ∧
    ∀ v k g, (v, k, g) ∈ goals → Leads s v k

/-- Every goal is at a watched variable, or is due to be looked at. -/
structure Sound (s : Interpreter) (pending : List (ℕ × Cell)) (due : List ℕ) : Prop where
  keys : ∀ k g, s.closures.lookup k = some g →
    k < s.size ∧ g ≠ Cell.EMPTY_LIST ∧ ((s.mem k).tag = .RFW ∧ IsVar s.mem k ∨ k ∈ due)
  held : Held s pending
  once : due.Nodup

/-- What is left of the state at a choice point, with the trail since then. A goal that was started
or moved leaves a bound variable. -/
structure Since (snap s : Interpreter) (new : List ℕ) : Prop where
  trail : s.trail = new ++ snap.trail
  size : snap.size ≤ s.size
  hb : snap.size ≤ s.hb
  undo : ∀ x, x < snap.size → x ∈ new → IsVar snap.mem x
  kept : ∀ x, x < snap.size → x ∉ new → Refers snap.mem s.mem x
  closures : ∀ k g, snap.closures.lookup k = some g →
    s.closures.lookup k = some g ∨ s.closures.lookup k = none ∧ ¬ IsVar s.mem k
  low : ∀ k, HasGoal snap k → k < snap.size
  added : ∀ k, HasGoal s k → ¬ HasGoal snap k → k < snap.size → k ∈ new

variable {s s' snap snap' : Interpreter} {pending : List (ℕ × Cell)} {due new : List ℕ}
  {v k t : ℕ} {g : Cell}

theorem hasGoal_iff : HasGoal s k ↔ ∃ g, s.closures.lookup k = some g := Option.isSome_iff_exists

theorem Leads.congr (leads : Leads s v k) (size : s.size ≤ s'.size)
    (same : ∀ x, x < s.size → ¬ IsVar s.mem x → Refers s.mem s'.mem x) : Leads s' v k := by
  induction leads with
  | refl onHeap => exact .refl (onHeap.trans_le size)
  | @step v k onHeap isRef older rest ih =>
    have refers := same v onHeap fun isVar => older.ne isVar.2
    refine .step (onHeap.trans_le size) (refers.isRef.trans isRef) ?_ ?_
    · rw [refers.index]
      exact older
    · rw [refers.index]
      exact ih

theorem Leads.trans (first : Leads s v k) (later : Leads s k t) : Leads s v t := by
  induction first with
  | refl _ => exact later
  | step onHeap isRef older _ ih => exact .step onHeap isRef older (ih later)

theorem Leads.lt (leads : Leads s v k) : k < s.size := by
  induction leads with
  | refl onHeap => exact onHeap
  | step _ _ _ _ ih => exact ih

theorem Leads.le (leads : Leads s v k) : k ≤ v := by
  induction leads with
  | refl _ => exact le_rfl
  | step _ _ older _ ih => exact ih.trans older.le

theorem Leads.deref_eq (leads : Leads s v k) {n : ℕ} {d : Cell}
    (found : deref s.mem n (s.mem k) = some d) :
    deref s.mem (n + (v - k)) (s.mem v) = some d := by
  induction leads with
  | refl _ => rwa [Nat.sub_self]
  | @step v k onHeap isRef older rest ih =>
    have found := ih found
    have le := rest.le
    obtain ⟨m, enough⟩ : ∃ m, n + (v - k) = m + 1 := ⟨n + (v - k) - 1, by omega⟩
    rw [enough]
    unfold deref
    rw [if_pos isRef]
    split_ifs with same
    · -- the cell refers to an unbound variable, and has the very reference of it
      rw [same] at found
      have : deref s.mem (n + (v - k)) (s.mem v) = some d :=
        deref_lasting s.mem (s.mem v) _ _ d (by omega) found
      rw [enough] at this
      unfold deref at this
      rwa [if_pos isRef, if_pos same] at this
    · exact deref_lasting s.mem _ _ m d (by omega) found

theorem Leads.deref_var (leads : Leads s v k) (isVar : IsVar s.mem k) :
    deref s.mem (s.size + 1) (s.mem v) = some (s.mem k) := by
  have own : deref s.mem 1 (s.mem k) = some (s.mem k) := by
    unfold deref
    rw [if_pos isVar.1, if_pos (congrArg s.mem isVar.2)]
  have onHeap : v < s.size := by
    cases leads with
    | refl onHeap => exact onHeap
    | step onHeap _ _ _ => exact onHeap
  exact deref_lasting s.mem _ _ _ _ (by omega) (leads.deref_eq own)

theorem Leads.not_valued (leads : Leads s v k) (isVar : IsVar s.mem k) : valued s v = false := by
  unfold valued
  rw [leads.deref_var isVar]
  dsimp only
  rw [isVar.1]
  rfl

theorem Leads.valued (leads : Leads s v k) (notRef : (s.mem k).tag.isRef = false) :
    valued s v = true := by
  have own : deref s.mem 1 (s.mem k) = some (s.mem k) := by
    unfold deref
    rw [if_neg]
    rw [notRef]
    exact Bool.false_ne_true
  have onHeap : v < s.size := by
    cases leads with
    | refl onHeap => exact onHeap
    | step onHeap _ _ _ => exact onHeap
  have found : deref s.mem (s.size + 1) (s.mem v) = some (s.mem k) :=
    deref_lasting s.mem _ _ _ _ (by omega) (leads.deref_eq own)
  unfold Coroutines.valued
  rw [found]
  dsimp only
  rw [notRef]
  rfl

theorem Held.congr (held : Held s pending) (size : s.size ≤ s'.size)
    (closures : s'.closures = s.closures)
    (same : ∀ x, x < s.size → ¬ IsVar s.mem x → Refers s.mem s'.mem x) : Held s' pending := by
  obtain ⟨goals, listed, nodup, keys, leads⟩ := held
  refine ⟨goals, listed, nodup, fun k g => ?_, fun v k g mem => (leads v k g mem).congr size same⟩
  rw [closures]
  exact keys k g

theorem Since.var (since : Since snap s new) {x : ℕ} (old : x < snap.size)
    (isVar : IsVar s.mem x) : IsVar snap.mem x := by
  by_cases listed : x ∈ new
  · exact since.undo x old listed
  · exact (since.kept x old listed).isVar_iff.1 isVar

theorem Since.agree (since : Since snap s new) (trail : s'.trail = s.trail)
    (size : s.size ≤ s'.size) (hb : snap.size ≤ s'.hb) (closures : ∀ k, s'.closures.lookup k = s.closures.lookup k)
    (refers : ∀ x, x < snap.size → Refers s.mem s'.mem x) : Since snap s' new where
  trail := trail.trans since.trail
  size := since.size.trans size
  hb := hb
  undo := since.undo
  kept := fun x old absent => (since.kept x old absent).trans (refers x old)
  closures := fun k g found => by
    rw [closures, (refers k (since.low k (hasGoal_iff.2 ⟨g, found⟩))).isVar_iff]
    exact since.closures k g found
  low := since.low
  added := fun k has => by
    unfold HasGoal at has
    rw [closures] at has
    exact since.added k has

theorem Since.push (since : Since snap s new) {x : ℕ} (isVar : IsVar s.mem x)
    (trail : s'.trail = if x < s.hb then x :: s.trail else s.trail) (size : s'.size = s.size)
    (hb : s'.hb = s.hb) (refers : ∀ y, y ≠ x → Refers s.mem s'.mem y)
    (closures : ∀ k g, snap.closures.lookup k = some g →
      s'.closures.lookup k = some g ∨ s'.closures.lookup k = none ∧ ¬ IsVar s'.mem k)
    (added : ∀ k, HasGoal s' k → HasGoal s k ∨ k = x) :
    Since snap s' (if x < s.hb then x :: new else new) := by
  have listed {y : ℕ} (old : y < snap.size) :
      y ∈ (if x < s.hb then x :: new else new) ↔ y = x ∨ y ∈ new := by
    split_ifs with trailed
    · exact List.mem_cons
    · refine (or_iff_right ?_).symm
      rintro rfl
      exact trailed (old.trans_le since.hb)
  refine ⟨?_, since.size.trans size.ge, since.hb.trans hb.ge, fun y old mem => ?_,
    fun y old absent => ?_, closures, since.low, fun k has new' old => ?_⟩
  · rw [trail, since.trail]
    split_ifs
    · rfl
    · rfl
  · rcases (listed old).1 mem with rfl | mem
    · exact since.var old isVar
    · exact since.undo y old mem
  · rw [listed old, not_or] at absent
    exact (since.kept y old absent.2).trans (refers y absent.1)
  · rw [listed old]
    rcases added k has with has | rfl
    · exact .inr (since.added k has new' old)
    · exact .inl rfl

theorem bindVar_eq (s : Interpreter) (r v : Cell) :
    s.bindVar r v =
      { s with
        watched := if r.tag = .RFW then addWatched s.watched r.index else s.watched
        mem := Function.update (if r.tag = .RFW ∧ v.tag.isRef = true
          then heapWatch s.mem v.index true else s.mem) r.index v
        trail := if r.index < s.hb then r.index :: s.trail else s.trail } := by
  unfold Interpreter.bindVar Interpreter.bind
  by_cases takes : r.tag = .RFW ∧ v.tag.isRef = true
  · rw [if_pos takes, if_pos takes]
  · rw [if_neg takes, if_neg takes]

theorem mem_addWatched {watched : List ℕ} {addr y : ℕ} :
    y ∈ addWatched watched addr ↔ y ∈ watched ∨ y = addr := by
  unfold addWatched
  split_ifs with here
  · refine ⟨.inl, fun mem => mem.elim id ?_⟩
    rintro rfl
    exact here
  · rw [List.mem_append, List.mem_singleton]

/-- What a binding changes -/
structure Binds (s s' : Interpreter) (r v : Cell) : Prop where
  size : s'.size = s.size
  trail : s'.trail = if r.index < s.hb then r.index :: s.trail else s.trail
  hb : s'.hb = s.hb
  closures : s'.closures = s.closures
  rest : s'.b = s.b ∧ s'.started = s.started
  own : s.mem r.index = r
  isVar : IsVar s.mem r.index
  bound : ¬ IsVar s'.mem r.index
  cell : s'.mem r.index = v
  agrees : ∀ y, y ≠ r.index → Agrees s.mem s'.mem y
  flag : ∀ y, y ≠ r.index → (s.mem y).tag = .RFW → (s'.mem y).tag = .RFW
  watched : ∀ y, y ∈ s.watched ∨ y = r.index ∧ r.tag = .RFW → y ∈ s'.watched
  once : s.watched.Nodup → s'.watched.Nodup

theorem binds_bindVar {r v : Cell} (valid : ValidBind s r v) : Binds s (s.bindVar r v) r v := by
  obtain ⟨isRef, _, own, older⟩ := valid
  rw [bindVar_eq]
  refine ⟨rfl, rfl, rfl, rfl, ⟨rfl, rfl⟩, own, by rw [IsVar, own]; exact ⟨isRef, rfl⟩, ?_,
    Function.update_self .., fun y other => ?_, fun y other watched => ?_, fun y mem => ?_,
    fun once => ?_⟩
  · dsimp only
    rw [IsVar, Function.update_self]
    rintro ⟨isRef', same⟩
    exact (older isRef').1.ne same
  · dsimp only
    rw [Agrees, IsVar, IsVar, Function.update_of_ne other]
    split_ifs with takes
    · apply heapWatch_agrees
      rw [IsVar, (older takes.2).2]
      exact ⟨takes.2, rfl⟩
    · exact .inl rfl
  · dsimp only
    rw [Function.update_of_ne other]
    split_ifs
    · by_cases here : y = v.index
      · subst here
        exact heapWatch_tag (isRef_of_watched watched)
      · rwa [heapWatch_of_ne true here]
    · exact watched
  · dsimp only
    split_ifs with watched
    · rw [mem_addWatched]
      exact mem.imp_right And.left
    · exact mem.resolve_right fun here => watched here.2
  · dsimp only
    unfold addWatched
    split_ifs with watched here
    · exact once
    · rw [List.nodup_append]
      refine ⟨once, List.nodup_singleton _, fun y mem z mem' same => here ?_⟩
      rwa [← List.mem_singleton.1 mem', ← same]
    · exact once

theorem Binds.refers {r v : Cell} (binds : Binds s s' r v) (x : ℕ) (bound : ¬ IsVar s.mem x) :
    Refers s.mem s'.mem x := by
  apply (binds.agrees x _).refers
  rintro rfl
  exact bound binds.isVar

theorem Binds.sound {r v : Cell} (binds : Binds s s' r v) (sound : Sound s pending s.watched) :
    Sound s' pending s'.watched := by
  refine ⟨fun k g found => ?_,
    sound.held.congr binds.size.ge binds.closures fun x _ => binds.refers x, binds.once sound.once⟩
  rw [binds.closures] at found
  obtain ⟨onHeap, isGoal, place⟩ := sound.keys k g found
  refine ⟨onHeap.trans_le binds.size.ge, isGoal, ?_⟩
  rcases place with ⟨watched, isVar⟩ | due
  · by_cases here : k = r.index
    · subst here
      rw [binds.own] at watched
      exact .inr (binds.watched _ (.inr ⟨rfl, watched⟩))
    · exact .inl ⟨binds.flag k here watched, (binds.agrees k here).refers.isVar_iff.2 isVar⟩
  · exact .inr (binds.watched k (.inl due))

theorem Binds.fixed {r v : Cell} (binds : Binds s s' r v) {x : ℕ} (isVar : IsVar s'.mem x) :
    IsVar s.mem x := by
  by_cases here : x = r.index
  · rw [here]
    exact binds.isVar
  · exact (binds.agrees x here).refers.isVar_iff.1 isVar

theorem Binds.since {r v : Cell} (binds : Binds s s' r v) (since : Since snap s new) :
    Since snap s' (if r.index < s.hb then r.index :: new else new) := by
  apply since.push binds.isVar binds.trail binds.size binds.hb
  · exact fun y other => (binds.agrees y other).refers
  · intro k g found
    rw [binds.closures]
    exact (since.closures k g found).imp_right (And.imp_right (mt binds.fixed))
  · intro k has
    rw [HasGoal, binds.closures] at has
    exact .inl has

/-- After bindings that are all on the trail -/
structure Tested (s t : Interpreter) (pending : List (ℕ × Cell)) (part : List ℕ) : Prop where
  since : Since { s with hb := s.size } t part
  size : t.size = s.size
  hb : t.hb = s.size
  closures : t.closures = s.closures
  bound : ∀ k ∈ part, ¬ IsVar t.mem k
  rest : t.b = s.b ∧ t.started = s.started
  sound : Sound t pending t.watched

theorem since_refl (low : ∀ k, HasGoal s k → k < s.size) (hb : s.size ≤ s.hb) : Since s s [] :=
  ⟨rfl, le_rfl, hb, nofun, fun _ _ _ => .inl rfl, fun _ _ => .inl, low,
    fun _ has new => absurd has new⟩

theorem Sound.low (sound : Sound s pending due) (k : ℕ) (has : HasGoal s k) : k < s.size := by
  obtain ⟨g, found⟩ := Option.isSome_iff_exists.1 has
  exact (sound.keys k g found).1

theorem Tested.fold {binds : List (Cell × Cell)} {part : List ℕ} {t : Interpreter}
    (tested : Tested s t pending part) (valid : ValidBinds t binds) :
    ∃ part', Tested s (binds.foldl (fun s p => s.bindVar p.1 p.2) t) pending part' ∧
      (SparesGoals t binds → (∀ k ∈ part, HasGoal s k → (t.mem k).tag ≠ .RFW) →
        ∀ k ∈ part', HasGoal s k →
          ((binds.foldl (fun s p => s.bindVar p.1 p.2) t).mem k).tag ≠ .RFW) := by
  induction binds generalizing t part with
  | nil => exact ⟨part, tested, fun _ spared => spared⟩
  | cons bind binds ih =>
    obtain ⟨r, v⟩ := bind
    have here := binds_bindVar valid.1
    have older {k : ℕ} (mem : k ∈ if r.index < t.hb then r.index :: part else part)
        (other : k ≠ r.index) : k ∈ part := by
      split_ifs at mem
      · exact (List.mem_cons.1 mem).resolve_left other
      · exact mem
    have bound (k : ℕ) (mem : k ∈ if r.index < t.hb then r.index :: part else part) :
        ¬ IsVar (t.bindVar r v).mem k := by
      by_cases same : k = r.index
      · rw [same]
        exact here.bound
      · exact mt here.fixed (tested.bound k (older mem same))
    have tested' : Tested s (t.bindVar r v) pending
        (if r.index < t.hb then r.index :: part else part) :=
      ⟨here.since tested.since, here.size.trans tested.size, here.hb.trans tested.hb,
        here.closures.trans tested.closures, bound,
        ⟨here.rest.1.trans tested.rest.1, here.rest.2.trans tested.rest.2⟩,
        here.sound tested.sound⟩
    obtain ⟨part', done, spares⟩ := ih tested' valid.2
    refine ⟨part', done, fun spared plain => spares spared.2 fun k mem has => ?_⟩
    by_cases same : k = r.index
    · subst same
      rw [here.cell]
      apply spared.1
      rwa [HasGoal, tested.closures]
    · have mem := older mem same
      rw [(here.agrees k same).resolve_right fun vars => tested.bound k mem vars.1]
      exact plain k mem has

theorem Sound.attempt (sound : Sound s pending s.watched) {binds : List (Cell × Cell)}
    (clears : Bool) (valid : ValidBinds { s with hb := s.size } binds)
    (spares : clears = true → SparesGoals { s with hb := s.size } binds) :
    Sound (s.attempt binds clears) pending (s.attempt binds clears).watched ∧
      (s.attempt binds clears).trail = s.trail ∧ (s.attempt binds clears).size = s.size ∧
      (s.attempt binds clears).hb = s.hb ∧
      (∀ k, (s.attempt binds clears).closures.lookup k = s.closures.lookup k) ∧
      (∀ x, x < s.size → Refers s.mem (s.attempt binds clears).mem x) ∧
      (s.attempt binds clears).b = s.b ∧ (s.attempt binds clears).started = s.started := by
  have start : Tested s { s with hb := s.size } pending [] :=
    ⟨since_refl (s := { s with hb := s.size }) sound.low le_rfl, rfl, rfl, rfl, nofun, ⟨rfl, rfl⟩,
      ⟨sound.keys, sound.held.congr le_rfl rfl fun _ _ _ => .inl rfl, sound.once⟩⟩
  obtain ⟨part, tested, plain⟩ := start.fold valid
  unfold Interpreter.attempt
  dsimp only
  generalize binds.foldl (fun s p => s.bindVar p.1 p.2) { s with hb := s.size } = t at *
  have trail : t.trail = part ++ s.trail := tested.since.trail
  have count : t.trail.length - s.trail.length = part.length := by
    rw [trail, List.length_append, Nat.add_sub_cancel]
  have taken : t.trail.take part.length = part := by rw [trail, List.take_left' rfl]
  have dropped : t.trail.drop part.length = s.trail := by rw [trail, List.drop_left' rfl]
  rw [count, taken, dropped]
  -- the cells that are on the trail are variables again, and the others as they were
  have cell (x : ℕ) : unwindTrail (if clears = true then part.foldr clearFrozen (t.mem, t.closures)
      else (t.mem, t.closures)).1 part x = if x ∈ part then Cell.make .REF x else t.mem x := by
    rw [unwindTrail_apply]
    split_ifs with mem
    · rfl
    · rw [(clearFrozen_foldr part (t.mem, t.closures) x).1, if_neg (fun both => mem both.1)]
    · rfl
  have closure (k : ℕ) : (if clears = true then part.foldr clearFrozen (t.mem, t.closures)
      else (t.mem, t.closures)).2.lookup k = s.closures.lookup k := by
    split_ifs with clear
    · rw [(clearFrozen_foldr part (t.mem, t.closures) k).2, tested.closures]
      split_ifs with erased
      · by_contra has
        apply plain (spares clear) nofun k erased.1 _ erased.2
        rw [HasGoal, Option.isSome_iff_ne_none]
        exact fun none => has none.symm
      · rfl
    · rw [tested.closures]
  have refers (x : ℕ) (old : x < s.size) : Refers s.mem (unwindTrail (if clears = true then
      part.foldr clearFrozen (t.mem, t.closures) else (t.mem, t.closures)).1 part) x := by
    by_cases mem : x ∈ part
    · exact (Agrees.reset (tested.since.undo x old mem) ((cell x).trans (if_pos mem))).refers
    · have kept := tested.since.kept x old mem
      rwa [Refers, cell, if_neg mem]
  refine ⟨⟨fun k g found => ?_, ?_, tested.sound.once⟩, rfl, tested.size, rfl, closure, refers,
    tested.rest⟩
  · rw [closure] at found
    rw [← tested.closures] at found
    obtain ⟨onHeap, isGoal, place⟩ := tested.sound.keys k g found
    refine ⟨onHeap, isGoal, ?_⟩
    by_cases mem : k ∈ part
    · exact .inr (place.resolve_left fun watched => tested.bound k mem watched.2)
    · dsimp only
      rw [IsVar, cell, if_neg mem]
      exact place
  · obtain ⟨goals, listed, nodup, keys, leads⟩ := sound.held
    refine ⟨goals, listed, nodup, fun k g => ?_, fun v k g mem => ?_⟩
    · rw [← keys, closure]
    · exact (leads v k g mem).congr tested.size.ge fun x onHeap _ => refers x onHeap

theorem setFrozenClosure_closures (none : ¬ HasGoal s k) (g : Cell) :
    (s.setFrozenClosure k g).closures = s.closures.insert k g := by
  unfold HasGoal at none
  exact if_neg none

theorem Sound.freeze (sound : Sound s pending s.watched) (onHeap : k < s.size)
    (isVar : IsVar s.mem k) (isGoal : g ≠ Cell.EMPTY_LIST) (none : ¬ HasGoal s k) :
    Sound (s.freeze k g) (pending ++ [(k, g)]) s.watched := by
  have closures := setFrozenClosure_closures none g
  unfold Interpreter.freeze
  refine ⟨fun k' g' found => ?_, ?_, sound.once⟩
  · rw [closures, lookup_insert_ite] at found
    change k' < s.size ∧ _ ∧
      ((heapWatch s.mem k true k').tag = .RFW ∧ IsVar (heapWatch s.mem k true) k' ∨ _)
    rw [(heapWatch_refers k true).isVar_iff]
    split_ifs at found with here
    · subst here
      rw [← Option.some.inj found]
      exact ⟨onHeap, isGoal, .inl ⟨heapWatch_tag isVar.1, isVar⟩⟩
    · obtain ⟨onHeap', isGoal', place⟩ := sound.keys k' g' found
      rw [heapWatch_of_ne true here]
      exact ⟨onHeap', isGoal', place⟩
  · obtain ⟨goals, rfl, nodup, keys, leads⟩ := sound.held
    refine ⟨goals ++ [(k, k, g)], ?_, ?_, fun k' g' => ?_, fun v k' g' mem => ?_⟩
    · rw [List.map_append]
      rfl
    · rw [List.map_append, List.nodup_append]
      refine ⟨nodup, List.nodup_singleton _, fun x mem y mem' same => none ?_⟩
      obtain ⟨⟨v, k', g'⟩, listed, rfl⟩ := List.mem_map.1 mem
      rw [List.map_singleton, List.mem_singleton] at mem'
      obtain rfl : k' = k := same.trans mem'
      exact hasGoal_iff.2 ⟨g', (keys k' g').2 ⟨v, listed⟩⟩
    · rw [closures, lookup_insert_ite]
      split_ifs with here
      · subst here
        constructor
        · intro found
          refine ⟨k', List.mem_append_right _ ?_⟩
          rw [Option.some.inj found]
          exact List.mem_cons_self
        · rintro ⟨v, mem⟩
          rcases List.mem_append.1 mem with mem | mem
          · exact absurd (hasGoal_iff.2 ⟨g', (keys k' g').2 ⟨v, mem⟩⟩) none
          · cases List.mem_singleton.1 mem
            rfl
      · rw [keys]
        refine exists_congr fun v => ⟨List.mem_append_left _, fun mem => ?_⟩
        refine (List.mem_append.1 mem).resolve_right fun mem => here ?_
        cases List.mem_singleton.1 mem
        rfl
    · have refers (x : ℕ) : Refers s.mem (s.setFrozenClosure k g).mem x := heapWatch_refers k true
      rcases List.mem_append.1 mem with mem | mem
      · exact (leads v k' g' mem).congr le_rfl fun x _ _ => refers x
      · cases List.mem_singleton.1 mem
        exact .refl onHeap

theorem Since.absent (since : Since snap s new) (isVar : IsVar s.mem k) (none : ¬ HasGoal s k) :
    ¬ HasGoal snap k := by
  intro has
  obtain ⟨g, found⟩ := hasGoal_iff.1 has
  rcases since.closures k g found with found | gone
  · exact none (hasGoal_iff.2 ⟨g, found⟩)
  · exact gone.2 isVar

theorem Since.freeze (since : Since snap s new) (isVar : IsVar s.mem k) (none : ¬ HasGoal s k) :
    Since snap (s.freeze k g) (if k < s.hb then k :: new else new) := by
  have closure (k' : ℕ) : (s.freeze k g).closures.lookup k' =
      if k' = k then some g else s.closures.lookup k' := by
    unfold Interpreter.freeze
    rw [setFrozenClosure_closures none, lookup_insert_ite]
  apply Since.push since isVar
  · rfl
  · rfl
  · rfl
  · exact fun y _ => heapWatch_refers k true
  · intro k' g' found
    rw [closure, if_neg]
    · refine (since.closures k' g' found).imp_right (And.imp_right (mt ?_))
      exact (heapWatch_refers k true).isVar_iff.1
    · rintro rfl
      exact since.absent isVar none (hasGoal_iff.2 ⟨g', found⟩)
  · intro k' has
    rw [HasGoal, closure] at has
    split_ifs at has with here
    · exact .inr here
    · exact .inl has

theorem Held.remove (held : Held s pending) (s' : Interpreter)
    (found : s.closures.lookup k = some g) (size : s.size ≤ s'.size) (closures : s'.closures = s.closures.erase k)
    (refers : ∀ x, Refers s.mem s'.mem x) :
    ∃ v first later, pending = first ++ (v, g) :: later ∧ Leads s v k ∧
      Held s' (first ++ later) := by
  obtain ⟨goals, rfl, nodup, keys, leads⟩ := held
  obtain ⟨v, mem⟩ := (keys k g).1 found
  obtain ⟨first, later, rfl⟩ := List.append_of_mem mem
  rw [List.map_append, List.map_cons, List.nodup_append, List.nodup_cons] at nodup
  obtain ⟨nodup, ⟨absent, nodup'⟩, apart⟩ := nodup
  refine ⟨v, first.map _, later.map _, List.map_append, leads v k g mem, first ++ later,
    List.map_append.symm, ?_, fun k' g' => ?_, fun v' k' g' mem' => ?_⟩
  · rw [List.map_append, List.nodup_append]
    exact ⟨nodup, nodup', fun x mem y mem' => apart x mem y (List.mem_cons_of_mem _ mem')⟩
  · rw [closures, lookup_erase_ite]
    split_ifs with here
    · refine ⟨nofun, ?_⟩
      rintro ⟨v', mem'⟩
      exfalso
      subst here
      rcases List.mem_append.1 mem' with mem' | mem'
      · exact apart k' (List.mem_map.2 ⟨_, mem', rfl⟩) k' List.mem_cons_self rfl
      · exact absent (List.mem_map.2 ⟨_, mem', rfl⟩)
    · rw [keys]
      refine exists_congr fun v' => ?_
      rw [List.mem_append, List.mem_append, List.mem_cons]
      refine or_congr_right ⟨fun mem' => mem'.resolve_left fun eq => here ?_, .inr⟩
      exact (Prod.mk.inj (Prod.mk.inj eq).2).1
  · apply (leads v' k' g' _).congr size fun x _ _ => refers x
    rw [List.mem_append] at mem' ⊢
    exact mem'.imp_right (List.mem_cons_of_mem _)

theorem Held.move (held : Held s pending) (found : s.closures.lookup k = some g)
    (way : Leads s k t) (new : ¬ HasGoal s t) (size : s.size ≤ s'.size)
    (closures : s'.closures = (s.closures.insert t g).erase k)
    (refers : ∀ x, Refers s.mem s'.mem x) : Held s' pending := by
  obtain ⟨goals, rfl, nodup, keys, leads⟩ := held
  have apart : t ≠ k := by
    rintro rfl
    exact new (hasGoal_iff.2 ⟨g, found⟩)
  have other {v k' : ℕ} {g' : Cell} (mem : (v, k', g') ∈ goals) : k' ≠ t := by
    rintro rfl
    exact new (hasGoal_iff.2 ⟨g', (keys k' g').2 ⟨v, mem⟩⟩)
  let place (x : ℕ × ℕ × Cell) : ℕ × ℕ × Cell := (x.1, if x.2.1 = k then t else x.2.1, x.2.2)
  refine ⟨goals.map place, ?_, ?_, fun k' g' => ?_, fun v' k' g' mem' => ?_⟩
  · rw [List.map_map]
    rfl
  · have moved : (goals.map place).map (fun x => x.2.1) =
        (goals.map fun x => x.2.1).map fun k' => if k' = k then t else k' := by
      rw [List.map_map, List.map_map]
      rfl
    rw [moved]
    refine nodup.map_on fun x mem y mem' same => ?_
    obtain ⟨⟨v, k', g'⟩, listed, rfl⟩ := List.mem_map.1 mem
    obtain ⟨⟨v', k'', g''⟩, listed', rfl⟩ := List.mem_map.1 mem'
    dsimp only at same ⊢
    split_ifs at same with here here' here'
    · rw [here, here']
    · exact absurd same.symm (other listed')
    · exact absurd same (other listed)
    · exact same
  · have listed : (∃ v, (v, k', g') ∈ goals.map place) ↔
        k' = t ∧ g' = g ∨ k' ≠ k ∧ s.closures.lookup k' = some g' := by
      constructor
      · rintro ⟨v, mem⟩
        obtain ⟨⟨v', k'', g''⟩, inGoals, eq⟩ := List.mem_map.1 mem
        cases eq
        have key := (keys k'' g'').2 ⟨v', inGoals⟩
        dsimp only
        by_cases here : k'' = k
        · subst here
          rw [if_pos rfl]
          exact .inl ⟨rfl, Option.some.inj (key.symm.trans found)⟩
        · rw [if_neg here]
          exact .inr ⟨here, key⟩
      · rintro (⟨rfl, rfl⟩ | ⟨differs, key⟩)
        · obtain ⟨v, mem⟩ := (keys k g').1 found
          exact ⟨v, List.mem_map.2 ⟨_, mem, by dsimp only [place]; rw [if_pos rfl]⟩⟩
        · obtain ⟨v, mem⟩ := (keys k' g').1 key
          exact ⟨v, List.mem_map.2 ⟨_, mem, by dsimp only [place]; rw [if_neg differs]⟩⟩
    rw [listed, closures, lookup_erase_ite, lookup_insert_ite]
    split_ifs with here here'
    · subst here
      refine ⟨nofun, fun some => ?_⟩
      rcases some with ⟨same, _⟩ | ⟨differs, _⟩
      · exact absurd same.symm apart
      · exact absurd rfl differs
    · subst here'
      have none : s.closures.lookup k' = none := Option.not_isSome_iff_eq_none.1 new
      rw [none]
      constructor
      · intro same
        exact .inl ⟨rfl, (Option.some.inj same).symm⟩
      · rintro (⟨_, rfl⟩ | ⟨_, some⟩)
        · rfl
        · exact nomatch some
    · exact ⟨fun key => .inr ⟨here, key⟩, fun some => (some.resolve_left fun eq => here' eq.1).2⟩
  · obtain ⟨⟨v, k'', g''⟩, mem, eq⟩ := List.mem_map.1 mem'
    cases eq
    have here := (leads v k'' g'' mem).congr size fun x _ _ => refers x
    dsimp only
    split_ifs with same
    · subst same
      exact here.trans (way.congr size fun x _ _ => refers x)
    · exact here

end Sound

end Epilog.Interp.Coroutines
