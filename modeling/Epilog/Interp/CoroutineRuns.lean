/- Module: Epilog/Interp/CoroutineRuns
   source: src/src/interp/interpreter_base.cpp (reset_to_choice_point, unwind),
     src/src/interp/test/pl_files/ex_15_freeze.pl
   digest: Runs with frozen goals and choice points: no goal is lost or started twice. -/

import Epilog.Interp.CheckFrozen

set_option autoImplicit false

namespace Epilog.Interp.Coroutines

open Epilog.Common.Term Epilog.Common.TermWalk Epilog.Common.Unify Epilog.Common.Forwarding
  Epilog.Lib.FiniteMap Epilog.Interp.Backtracking

section Kept

variable {s s' snap snap' : Interpreter} {h : History} {new new' : List ℕ}
  {b : List ChoicePoint} {saved : List (List (ℕ × Cell) × FMap ℕ Cell)}

/-- The interpreter when each choice point was made, and what has changed since -/
def Stacked (s : Interpreter) :
    List ChoicePoint → List (List (ℕ × Cell) × FMap ℕ Cell) → Prop
  | [], [] => True
  | ch :: b, (pending, closures) :: saved =>
    ∃ snap new, snap.trail.length = ch.tr ∧ snap.size = ch.h ∧ snap.closures = closures ∧
      Since snap s new ∧ Sound snap pending snap.watched ∧ Stacked snap b saved
  | _, _ => False

theorem Stacked.next (stacked : Stacked s b saved) (since : ∀ snap new,
    (∀ ch ∈ b.head?, snap.trail.length = ch.tr ∧ snap.size = ch.h) →
    Since snap s new → ∃ new', Since snap s' new') :
    Stacked s' b saved := by
  cases b with
  | nil =>
    cases saved with
    | nil => trivial
    | cons _ _ => exact stacked.elim
  | cons ch b =>
    cases saved with
    | nil => exact stacked.elim
    | cons top saved =>
      obtain ⟨snap, new, tr, size, closures, before, rest⟩ := stacked
      obtain ⟨new', after⟩ := since snap new (fun _ mem => by cases mem; exact ⟨tr, size⟩) before
      exact ⟨snap, new', tr, size, closures, after, rest⟩

theorem Since.trans (first : Since snap snap' new) (later : Since snap' s new')
    (hb : snap.size ≤ s.hb) : Since snap s (new' ++ new) where
  trail := by rw [later.trail, first.trail, List.append_assoc]
  size := first.size.trans later.size
  hb := hb
  undo := fun x old mem =>
    (List.mem_append.1 mem).elim
      (fun mem => first.var old (later.undo x (old.trans_le first.size) mem)) (first.undo x old)
  kept := fun x old absent => by
    rw [List.mem_append, not_or] at absent
    exact (first.kept x old absent.2).trans (later.kept x (old.trans_le first.size) absent.1)
  closures := fun k g found => by
    have old : k < snap'.size := (first.low k (hasGoal_iff.2 ⟨g, found⟩)).trans_le first.size
    rcases first.closures k g found with found' | ⟨gone, bound⟩
    · exact later.closures k g found'
    · refine .inr ⟨?_, fun isVar => bound (later.var old isVar)⟩
      -- a goal there would have been frozen on a variable that the later choice point had unbound
      by_contra has
      have fresh : ¬ HasGoal snap' k := by
        rw [HasGoal, gone]
        exact Bool.false_ne_true
      exact bound (later.undo k old (later.added k (Option.isSome_iff_ne_none.2 has) fresh old))
  low := first.low
  added := fun k has fresh old => by
    by_cases has' : HasGoal snap' k
    · exact List.mem_append_right _ (first.added k has' fresh old)
    · exact List.mem_append_left _ (later.added k has has' (old.trans_le first.size))

theorem Since.tidy (since : Since snap s new) (hb : snap.size ≤ s'.hb) (mem : s'.mem = s.mem)
    (size : s'.size = s.size) (closures : s'.closures = s.closures)
    (trail : s'.trail = new' ++ snap.trail) (same : ∀ x, x < snap.size → (x ∈ new' ↔ x ∈ new)) :
    Since snap s' new' where
  trail := trail
  size := since.size.trans size.ge
  hb := hb
  undo := fun x old listed => since.undo x old ((same x old).1 listed)
  kept := fun x old absent => by
    rw [mem]
    exact since.kept x old fun listed => absent ((same x old).2 listed)
  closures := fun k g found => by
    rw [closures, mem]
    exact since.closures k g found
  low := since.low
  added := fun k has fresh old => by
    rw [HasGoal, closures] at has
    exact (same k old).2 (since.added k has fresh old)

theorem Stacked.tail (stacked : Stacked s b saved) : Stacked s b.tail saved.tail := by
  cases b with
  | nil =>
    cases saved with
    | nil => trivial
    | cons _ _ => exact stacked.elim
  | cons ch b =>
    cases saved with
    | nil => exact stacked.elim
    | cons top saved =>
      obtain ⟨snap, new, _, _, _, before, _, rest⟩ := stacked
      exact rest.next fun snap' new' _ since =>
        ⟨new ++ new', since.trans before (since.size.trans before.hb)⟩

theorem Stacked.drop (stacked : Stacked s b saved) (n : ℕ) :
    Stacked s (b.drop n) (saved.drop n) := by
  induction n with
  | zero => exact stacked
  | succ n ih =>
    rw [← List.tail_drop, ← List.tail_drop]
    exact ih.tail

theorem Stacked.registerHb (stacked : Stacked s b saved) :
    Stacked { s with b := b }.registerHb b saved := by
  cases b with
  | nil =>
    cases saved with
    | nil => trivial
    | cons _ _ => exact stacked.elim
  | cons ch b =>
    apply stacked.next
    intro snap new top since
    exact ⟨new, since.tidy (top ch rfl).2.le rfl rfl rfl since.trail fun _ _ => Iff.rfl⟩

theorem Stacked.cut (stacked : Stacked s s.b saved) (n : ℕ) :
    Stacked (s.cut n) (s.cut n).b (saved.drop n) := by
  have dropped := (stacked.drop n).registerHb
  unfold Interpreter.cut
  dsimp only
  change Stacked _ (s.b.drop n) _
  rcases left : s.b.drop n with _ | ⟨ch, b⟩
  · rw [left] at dropped
    cases rest : saved.drop n with
    | nil => trivial
    | cons _ _ =>
      rw [rest] at dropped
      exact dropped.elim
  · rw [left] at dropped
    apply dropped.next
    intro snap new top since
    obtain ⟨tr, size⟩ := top ch rfl
    have trail : s.trail = new ++ snap.trail := since.trail
    have count : s.trail.length - ch.tr = new.length := by
      rw [trail, List.length_append, tr, Nat.add_sub_cancel]
    have taken : s.trail.take new.length = new := by rw [trail, List.take_left' rfl]
    have rest : s.trail.drop new.length = snap.trail := by rw [trail, List.drop_left' rfl]
    refine ⟨(tidy ch.h new.length new.reverse).reverse,
      since.tidy size.le rfl rfl rfl ?_ fun x old => ?_⟩
    · change (tidy ch.h (s.trail.length - ch.tr)
        (s.trail.take (s.trail.length - ch.tr)).reverse).reverse ++
          s.trail.drop (s.trail.length - ch.tr) = _
      rw [count, taken, rest]
    · rw [List.mem_reverse, mem_tidy List.length_reverse.le x (old.trans_eq size), List.mem_reverse]

/-- The frozen goals are those that should be pending, now and at every choice point. -/
structure Kept (s : Interpreter) (h : History) : Prop where
  sound : Sound s h.pending s.watched
  stacked : Stacked s s.b h.saved
  started : s.started.Perm h.started

theorem Sound.congr {pending : List (ℕ × Cell)} {due : List ℕ} (sound : Sound s pending due)
    (size : s.size ≤ s'.size) (closures : s'.closures = s.closures)
    (same : ∀ x, x < s.size → s'.mem x = s.mem x) : Sound s' pending due := by
  refine ⟨fun k g found => ?_, ?_, sound.once⟩
  · rw [closures] at found
    obtain ⟨onHeap, rest⟩ := sound.keys k g found
    rw [IsVar, same k onHeap]
    exact ⟨onHeap.trans_le size, rest⟩
  · exact sound.held.congr size closures fun x onHeap _ => .inl (same x onHeap)

theorem lookup_erased (addrs : List ℕ) (m : FMap ℕ Cell) (k : ℕ) :
    (addrs.foldl (fun m addr => m.erase addr) m).lookup k =
      if k ∈ addrs then none else m.lookup k := by
  induction addrs generalizing m with
  | nil => rw [if_neg List.not_mem_nil, List.foldl_nil]
  | cons addr addrs ih =>
    rw [List.foldl_cons, ih, lookup_erase_ite]
    by_cases here : k = addr
    · simp [here]
    · simp [here]

theorem fail_lookup {ch : ChoicePoint} (last : s.b = ch :: b) (k : ℕ) :
    s.fail.closures.lookup k =
      if k ∈ List.range' (max ch.h s.limiter) (s.size - max ch.h s.limiter) then none
      else if k ∈ s.trail.take (s.trail.length - ch.tr) ∧ (s.mem k).tag = .RFW then none
      else s.closures.lookup k := by
  unfold Interpreter.fail
  rw [last]
  dsimp only
  rw [lookup_erased, (clearFrozen_foldr _ (s.mem, s.closures) k).2]

theorem Since.undoable_iff (since : Since snap s new) (sound : Sound s h.pending s.watched)
    {ch : ChoicePoint} (last : s.b = ch :: b) (size : snap.size = ch.h) :
    Undoable s ch snap.closures ↔ s.fail.closures = snap.closures := by
  constructor
  · intro undoable
    apply Finmap.ext_lookup
    intro k
    rw [fail_lookup last]
    rcases old : snap.closures.lookup k with _ | g
    · rcases found : s.closures.lookup k with _ | g
      · rw [ite_self, ite_self]
      · have has : HasGoal s k := hasGoal_iff.2 ⟨g, found⟩
        split_ifs with above watched
        · rfl
        · rfl
        · -- the goal was frozen since, and is to stay on the heap
          have onHeap := (sound.keys k g found).1
          rw [List.mem_range'_1] at above
          obtain ⟨tag, mem⟩ := undoable.since k has old (by omega)
          exact absurd ⟨mem, tag⟩ watched
    · have has : HasGoal snap k := hasGoal_iff.2 ⟨g, old⟩
      have low := since.low k has
      rw [if_neg, if_neg]
      · refine (since.closures k g old).resolve_right fun gone => ?_
        obtain ⟨g', found⟩ := hasGoal_iff.1 (undoable.stay k has)
        exact nomatch gone.1.symm.trans found
      · exact fun watched => undoable.before k has watched.1 watched.2
      · rw [List.mem_range'_1]
        omega
  · intro same
    have closure (k : ℕ) := (fail_lookup last k).symm.trans (congrArg (Finmap.lookup k) same)
    refine ⟨fun k has => ?_, fun k has mem tag => ?_, fun k has old low => ?_⟩
    · obtain ⟨g, old⟩ := Option.isSome_iff_exists.1 has
      have found := closure k
      rw [old] at found
      split_ifs at found
      exact hasGoal_iff.2 ⟨g, found⟩
    · have gone := closure k
      rw [if_pos (⟨mem, tag⟩ : _ ∧ _), ite_self] at gone
      rw [← gone] at has
      exact nomatch has
    · have gone := closure k
      rw [old, if_neg] at gone
      · split_ifs at gone with watched
        · exact watched.symm
        · rw [HasGoal, gone] at has
          exact nomatch has
      · rw [List.mem_range'_1]
        omega

theorem Since.fail (since : Since snap s new) (sound : Sound s h.pending s.watched)
    {pending : List (ℕ × Cell)} (before : Sound snap pending snap.watched) {ch : ChoicePoint}
    (last : s.b = ch :: b) (tr : snap.trail.length = ch.tr) (size : snap.size = ch.h)
    (undoable : Undoable s ch snap.closures) :
    Sound s.fail pending s.fail.watched ∧ Since snap s.fail [] ∧
      s.fail.b = s.b ∧ s.fail.started = s.started := by
  have part : s.trail.take (s.trail.length - ch.tr) = new := by
    rw [since.trail, List.length_append, tr, Nat.add_sub_cancel, List.take_left' rfl]
  have rest : s.trail.drop (s.trail.length - ch.tr) = snap.trail := by
    rw [since.trail, List.length_append, tr, Nat.add_sub_cancel, List.drop_left' rfl]
  have closures := (since.undoable_iff sound last size).1 undoable
  have failed : s.fail = { s with
      mem := unwindTrail (new.foldr clearFrozen (s.mem, s.closures)).1 new
      trail := snap.trail
      closures := snap.closures
      size := max ch.h s.limiter
      hb := max ch.h s.limiter } := by
    rw [← closures]
    unfold Interpreter.fail
    rw [last]
    dsimp only
    rw [part, rest]
  have cell (x : ℕ) : s.fail.mem x = if x ∈ new then Cell.make .REF x else s.mem x := by
    rw [failed]
    dsimp only
    rw [unwindTrail_apply]
    split_ifs with mem
    · rfl
    · rw [(clearFrozen_foldr new (s.mem, s.closures) x).1, if_neg fun both => mem both.1]
  have top : snap.size ≤ s.fail.size := by
    rw [failed, size]
    exact le_max_left ..
  have refers (x : ℕ) (old : x < snap.size) : Refers snap.mem s.fail.mem x := by
    by_cases mem : x ∈ new
    · exact (Agrees.reset (since.undo x old mem) ((cell x).trans (if_pos mem))).refers
    · have kept := since.kept x old mem
      rwa [Refers, cell, if_neg mem]
  refine ⟨⟨fun k g found => ?_, ?_, ?_⟩, ?_, by rw [failed], by rw [failed]⟩
  · rw [closures] at found
    have has : HasGoal snap k := hasGoal_iff.2 ⟨g, found⟩
    obtain ⟨onHeap, isGoal, _⟩ := before.keys k g found
    obtain ⟨g', found'⟩ := hasGoal_iff.1 (undoable.stay k has)
    obtain ⟨_, _, place⟩ := sound.keys k g' found'
    refine ⟨onHeap.trans_le top, isGoal, ?_⟩
    have watched : s.fail.watched = s.watched := by rw [failed]
    rw [watched]
    by_cases mem : k ∈ new
    · rw [← part] at mem
      exact .inr (place.resolve_left fun flagged => undoable.before k has mem flagged.1)
    · rwa [IsVar, cell, if_neg mem]
  · exact before.held.congr top closures fun x onHeap _ => refers x onHeap
  · rw [failed]
    exact sound.once
  · refine ⟨?_, top, ?_, fun _ _ none => absurd none List.not_mem_nil, fun x old _ => refers x old, fun k g found => .inl ?_, since.low,
      fun k has fresh => ?_⟩
    · rw [failed]
      rfl
    · rw [failed, size]
      exact le_max_left ..
    · rwa [closures]
    · rw [HasGoal, closures] at has
      exact absurd has fresh

theorem Kept.check (kept : Kept s h) (checkable : Checkable s)
    (ran : s.watched.reverse.foldlM Interpreter.checkOne s = some s') :
    Kept { s' with watched := [] } (h.apply s .check) := by
  obtain ⟨pending, checking⟩ := (kept.sound.checking kept.started).fold
    (fun k mem => List.mem_reverse.1 mem) checkable ran
  obtain ⟨rfl, started⟩ := checking.done
  refine ⟨⟨checking.sound.keys, checking.sound.held.congr le_rfl rfl fun _ _ _ => .inl rfl,
    List.nodup_nil⟩, ?_, started⟩
  change Stacked _ s'.b h.saved
  rw [checking.b]
  refine kept.stacked.next fun snap new _ since => ?_
  obtain ⟨new', since'⟩ := checking.since snap new since
  exact ⟨new', since'.agree rfl le_rfl since'.hb (fun _ => rfl) fun _ _ => .inl rfl⟩

theorem Kept.fail (kept : Kept s h) (choice : s.b ≠ []) :
    (Meets s h .fail ↔ ∀ saved ∈ h.saved.head?, s.fail.closures = saved.2) ∧
      (Meets s h .fail → Kept s.fail (h.apply s .fail)) := by
  obtain ⟨ch, b, last⟩ := List.exists_cons_of_ne_nil choice
  obtain ⟨pending, started, saved⟩ := h
  have stacked := kept.stacked
  rw [last] at stacked
  cases saved with
  | nil => exact stacked.elim
  | cons top saved =>
    obtain ⟨snap, new, tr, size, closures, since, before, rest⟩ := stacked
    have met : Meets s ⟨pending, started, top :: saved⟩ .fail ↔ Undoable s ch snap.closures := by
      rw [closures]
      unfold Meets
      dsimp only
      rw [last]
      simp only [List.head?_cons, Option.mem_def, Option.some.injEq, forall_eq']
    rw [met]
    refine ⟨?_, fun undoable => ?_⟩
    · rw [since.undoable_iff kept.sound last size, closures]
      simp only [List.head?_cons, Option.mem_def, Option.some.injEq, forall_eq']
    · obtain ⟨sound, since', b', started'⟩ := since.fail kept.sound before last tr size undoable
      refine ⟨sound, ?_, ?_⟩
      · rw [b', last]
        exact ⟨snap, [], tr, size, closures, since', before, rest⟩
      · rw [started']
        exact kept.started

theorem Kept.step (kept : Kept s h) {event : Event} (valid : Valid s event)
    (met : Meets s h event) (ran : s.apply event = some s') : Kept s' (h.apply s event) := by
  obtain ⟨sound, stacked, started⟩ := kept
  cases event with
  | alloc cells =>
    cases ran
    have same (x : ℕ) (onHeap : x < s.size) : (s.alloc cells).mem x = s.mem x := if_pos onHeap
    have size : s.size ≤ (s.alloc cells).size := Nat.le_add_right ..
    refine ⟨sound.congr size rfl same, stacked.next fun snap new _ since => ?_, started⟩
    exact ⟨new, since.agree rfl size since.hb (fun _ => rfl) fun x old =>
      .inl (same x (old.trans_le since.size))⟩
  | bind r v =>
    cases ran
    have binds := binds_bindVar valid
    refine ⟨binds.sound sound, ?_, ?_⟩
    · rw [binds.rest.1]
      exact stacked.next fun snap new _ since => ⟨_, binds.since since⟩
    · rw [binds.rest.2]
      exact started
  | attempt binds clears =>
    cases ran
    obtain ⟨sound', trail, size, hb, closures, agrees, b, started'⟩ :=
      sound.attempt clears valid fun clear => by rw [clear] at met; exact met
    refine ⟨sound', ?_, ?_⟩
    · rw [b]
      refine stacked.next fun snap new _ since => ⟨new, ?_⟩
      exact since.agree trail size.ge (since.hb.trans hb.ge) closures fun x old =>
        agrees x (old.trans_le since.size)
    · rw [started']
      exact started
  | freeze index goal =>
    cases ran
    refine ⟨sound.freeze valid.1 valid.2.1 valid.2.2 met, ?_, started⟩
    exact stacked.next fun snap new _ since => ⟨_, since.freeze valid.2.1 met⟩
  | check =>
    obtain ⟨s₁, checked, same⟩ := Option.bind_eq_some_iff.1 ran
    cases same
    exact Kept.check ⟨sound, stacked, started⟩ met checked
  | choose =>
    cases ran
    refine ⟨sound.congr le_rfl rfl fun _ _ => rfl, ?_, started⟩
    refine ⟨s, [], rfl, rfl, rfl, ?_, sound, stacked⟩
    exact ⟨rfl, le_rfl, le_rfl, nofun, fun _ _ _ => .inl rfl, fun _ _ => .inl, sound.low,
      fun _ has fresh => absurd has fresh⟩
  | fail =>
    cases ran
    exact (Kept.fail ⟨sound, stacked, started⟩ valid).2 met
  | pop =>
    cases ran
    exact ⟨sound.congr le_rfl rfl fun _ _ => rfl, stacked.tail.registerHb, started⟩
  | cut n =>
    cases ran
    exact ⟨sound.congr le_rfl rfl fun _ _ => rfl, stacked.cut n, started⟩
  | limit l =>
    cases ran
    refine ⟨sound.congr le_rfl rfl fun _ _ => rfl, ?_, started⟩
    refine stacked.next fun snap new _ since => ⟨new, ?_⟩
    exact since.agree rfl le_rfl since.hb (fun _ => rfl) fun _ _ => .inl rfl

/-- Frozen goals that should be pending are, and those that should have been started were. -/
def Faithful (s : Interpreter) (h : History) : Prop :=
  s.started.Perm h.started ∧ Held s h.pending

theorem Reached.kept (reached : Reached Meets s h) : Kept s h := by
  induction reached with
  | start s noGoals noneDue noChoices noStarts =>
    refine ⟨⟨fun k g found => ?_, ⟨[], rfl, List.nodup_nil, fun k g => ?_, nofun⟩, ?_⟩, ?_, ?_⟩
    · rw [noGoals, Finmap.lookup_empty] at found
      exact nomatch found
    · rw [noGoals, Finmap.lookup_empty]
      exact ⟨nofun, fun ⟨_, mem⟩ => absurd mem List.not_mem_nil⟩
    · rw [noneDue]
      exact List.nodup_nil
    · rw [noChoices]
      trivial
    · rw [noStarts]
  | step _ event valid met ran ih => exact ih.step valid met ran

/-- Goals are neither lost nor started twice in runs that meet the condition, and in these it is
what backtracking needs to bring back the goals that were frozen at the choice point. -/
theorem goals_kept (reached : Reached Meets s h) :
    Faithful s h ∧ (s.b ≠ [] →
      (Meets s h .fail ↔ ∀ saved ∈ h.saved.head?, s.fail.closures = saved.2) ∧
      (Meets s h .fail → ∀ saved ∈ h.saved.head?, Held s.fail saved.1)) := by
  have kept := reached.kept
  refine ⟨⟨kept.started, kept.sound.held⟩, fun choice => ?_⟩
  obtain ⟨needed, after⟩ := kept.fail choice
  refine ⟨needed, fun met saved mem => ?_⟩
  have held := (after met).sound.held
  change Held _ ((h.saved.head?.map Prod.fst).getD h.pending) at held
  rw [mem] at held
  exact held

def oneVariable : Interpreter where
  mem := Cell.make .REF
  size := 1
  trail := []
  watched := []
  hb := 0
  closures := ∅
  limiter := 0
  b := []
  topHb := 0
  topTr := 0
  started := []

/-- A goal is frozen on the variable, and there is a choice point. -/
def frozen : Interpreter := (oneVariable.freeze 0 (Cell.make .INT 5)).allocateChoicePoint

def due : Interpreter := frozen.bindVar (frozen.mem 0) (Cell.make .INT 1)

/-- The goal has been started. -/
def woken : Interpreter := due.checkFrozen.get (by decide)

theorem reached_due :
    Reached Meets due
      ⟨[(0, Cell.make .INT 5)], [], [([(0, Cell.make .INT 5)], frozen.closures)]⟩ := by
  have start : Reached Meets oneVariable ⟨[], [], []⟩ := .start _ rfl rfl rfl rfl
  have goal := start.step (.freeze 0 (Cell.make .INT 5))
    ⟨by decide, ⟨by decide, by decide⟩, by decide⟩ (by unfold Meets HasGoal; decide) rfl
  have choice := goal.step .choose trivial trivial rfl
  exact choice.step (.bind (frozen.mem 0) (Cell.make .INT 1))
    ⟨by decide, by decide, by decide, nofun⟩ trivial rfl

/-- A goal that is frozen on a variable is started when the variable is bound. -/
theorem goals_kept_woken : ∃ h, Reached Meets woken h ∧ h.started = [Cell.make .INT 5] ∧
    h.pending = [] ∧ Faithful woken h := by
  have checkable : Checkable due := by
    have bound : ¬ IsVar due.mem 0 := fun isVar => nomatch (show false = true from isVar.1)
    have only {k : ℕ} (mem : k ∈ due.watched) : k = 0 := List.mem_singleton.1 mem
    refine ⟨fun k mem _ isVar => ?_, fun k mem _ isRef => ?_,
      fun k mem k' mem' _ _ _ _ _ _ _ _ => ?_, fun k mem none => ?_⟩
    · rw [only mem] at isVar
      exact absurd isVar bound
    · rw [only mem] at isRef
      exact nomatch (show false = true from isRef)
    · rw [only mem, only mem']
    · rw [only mem] at none
      exact absurd (by unfold HasGoal; decide) none
  have ran : due.apply .check = some woken := (Option.some_get _).symm
  have reached := reached_due.step .check trivial checkable ran
  exact ⟨_, reached, by decide, by decide, (goals_kept reached).1⟩

theorem Reached.mono {meets meets' : Interpreter → History → Event → Prop}
    (reached : Reached meets s h) (weaker : ∀ s h event, meets s h event → meets' s h event) :
    Reached meets' s h := by
  induction reached with
  | start s noGoals noneDue noChoices noStarts => exact .start s noGoals noneDue noChoices noStarts
  | step _ event valid met ran ih => exact ih.step event valid (weaker _ _ _ met) ran

/-- After backtracking the variable is bound again. -/
def rebound : Interpreter := woken.fail.bindVar (woken.fail.mem 0) (Cell.make .INT 2)

/-- The goal is started, and after backtracking it is not there when the variable is bound again. -/
theorem goal_lost : ¬ ∀ s h, Reached (fun _ _ _ => True) s h → Faithful s h := by
  intro faithful
  have reached : Reached (fun _ _ _ => True) due _ := reached_due.mono fun _ _ _ _ => trivial
  have ran : due.apply .check = some woken := (Option.some_get _).symm
  have failed := (reached.step .check trivial trivial ran).step .fail nofun trivial rfl
  have bound := failed.step (.bind (woken.fail.mem 0) (Cell.make .INT 2))
    ⟨by decide, by decide, by decide, nofun⟩ trivial rfl
  have ran' : rebound.apply .check = some (rebound.checkFrozen.get (by decide)) :=
    (Option.some_get _).symm
  have count := (faithful _ _ (bound.step .check trivial trivial ran')).1.length_eq
  exact absurd count (by decide)

end Kept

end Epilog.Interp.Coroutines
