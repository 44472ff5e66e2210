/- Module: Epilog/Interp/CheckFrozen
   source: src/src/interp/interpreter_base.hpp (check_frozen)
   digest: What check_frozen does to the goals, one watched address after the other. -/

import Epilog.Interp.FrozenGoals

set_option autoImplicit false

namespace Epilog.Interp.Coroutines

open Epilog.Common.Term Epilog.Common.TermWalk Epilog.Common.Unify Epilog.Common.Forwarding
  Epilog.Lib.FiniteMap Epilog.Interp.Backtracking

section Check

/-- `check_frozen` on its way: `todo` is what is left of the watched addresses. -/
structure Checking (s₀ s : Interpreter) (h : History) (todo : List ℕ)
    (pending : List (ℕ × Cell)) : Prop where
  refers : ∀ x, Refers s₀.mem s.mem x
  size : s.size = s₀.size
  b : s.b = s₀.b
  sound : Sound s pending todo
  same : ∀ x ∈ todo, ¬ IsVar s₀.mem x → s.closures.lookup x = s₀.closures.lookup x
  stay : ∀ x, IsVar s₀.mem x → HasGoal s₀ x → HasGoal s x
  flag : ∀ x, IsVar s₀.mem x → (s₀.mem x).tag = .RFW → (s.mem x).tag = .RFW
  origin : ∀ x, HasGoal s x → HasGoal s₀ x ∨ (s.mem x).tag = .RFW ∧ IsVar s₀.mem x ∧
    ∃ k ∈ s₀.watched, k ∉ todo ∧ HasGoal s₀ k ∧ ¬ IsVar s₀.mem k ∧ Leads s₀ k x
  since : ∀ snap new, Since snap s₀ new → ∃ new', Since snap s new'
  kept : (pending.filter fun p => !valued s₀ p.1) = h.pending.filter fun p => !valued s₀ p.1
  woken : (s.started ++ (pending.filter fun p => valued s₀ p.1).map Prod.snd).Perm
    (h.started ++ (h.pending.filter fun p => valued s₀ p.1).map Prod.snd)

variable {s₀ s s' : Interpreter} {h : History} {todo : List ℕ} {pending : List (ℕ × Cell)}
  {k t : ℕ} {g : Cell}

theorem Checking.isVar_iff (checking : Checking s₀ s h todo pending) (x : ℕ) :
    IsVar s.mem x ↔ IsVar s₀.mem x :=
  (checking.refers x).isVar_iff

theorem Checking.leads (checking : Checking s₀ s h todo pending) {v : ℕ} (leads : Leads s₀ v k) :
    Leads s v k :=
  leads.congr checking.size.ge fun x _ _ => checking.refers x

theorem Refers.symm {mem mem' : ℕ → Cell} {x : ℕ} (refers : Refers mem mem' x) :
    Refers mem' mem x :=
  refers.elim (fun same => .inl same.symm) fun both => .inr ⟨both.2.1, both.1, both.2.2.symm⟩

theorem Checking.leads_back (checking : Checking s₀ s h todo pending) {v : ℕ}
    (leads : Leads s v k) : Leads s₀ v k :=
  leads.congr checking.size.le fun x _ _ => (checking.refers x).symm

theorem Checking.idle (checking : Checking s₀ s h (k :: todo) pending)
    (none : HasGoal s k → (s.mem k).tag = .RFW ∧ IsVar s.mem k) :
    Checking s₀ s h todo pending := by
  refine ⟨checking.refers, checking.size, checking.b, ⟨fun k' g' found => ?_, checking.sound.held,
    checking.sound.once.of_cons⟩, fun x mem => checking.same x (List.mem_cons_of_mem _ mem),
    checking.stay, checking.flag, fun x has => ?_, checking.since, checking.kept, checking.woken⟩
  · obtain ⟨onHeap, isGoal, place⟩ := checking.sound.keys k' g' found
    refine ⟨onHeap, isGoal, place.elim .inl fun due => ?_⟩
    rcases List.mem_cons.1 due with rfl | due
    · exact .inl (none (hasGoal_iff.2 ⟨g', found⟩))
    · exact .inr due
  · refine (checking.origin x has).imp_right ?_
    rintro ⟨watched, isVar, k', mem, absent, rest⟩
    exact ⟨watched, isVar, k', mem, fun mem' => absent (List.mem_cons_of_mem _ mem'), rest⟩

theorem Checking.wake (checking : Checking s₀ s h (k :: todo) pending)
    (found : s.closures.lookup k = some g) (notRef : (s.mem k).tag.isRef = false) :
    ∃ pending', Checking s₀
      { s.clearFrozenClosure k with started := s.started ++ [g] } h todo pending' := by
  have cells : (s.clearFrozenClosure k).mem = s.mem := heapWatch_notRef false notRef
  have notVar : ¬ IsVar s.mem k := by
    intro isVar
    rw [isVar.1] at notRef
    cases notRef
  obtain ⟨absent, once⟩ := List.nodup_cons.1 checking.sound.once
  obtain ⟨v, first, later, rfl, leads, held⟩ := checking.sound.held.remove
    { s.clearFrozenClosure k with started := s.started ++ [g] } found le_rfl rfl
    fun x => .inl (congrFun cells x)
  have isValued : valued s₀ v = true := by
    apply (checking.leads_back leads).valued
    rw [← (checking.refers k).isRef]
    exact notRef
  have closure (x : ℕ) : (s.closures.erase k).lookup x =
      if x = k then none else s.closures.lookup x := lookup_erase_ite ..
  have cleared : Interpreter.clearFrozenClosure s k =
      { s with closures := s.closures.erase k } := by
    rw [← cells]
    rfl
  rw [cleared]
  refine ⟨first ++ later, ⟨checking.refers, checking.size, checking.b,
    ⟨fun k' g' found' => ?_, ?_, once⟩, fun x mem notVar => ?_, fun x isVar has => ?_,
    checking.flag, fun x has => ?_, fun snap new since => ?_, ?_, ?_⟩⟩
  · dsimp only at found' ⊢
    rw [closure] at found'
    split_ifs at found' with here
    obtain ⟨onHeap, isGoal, place⟩ := checking.sound.keys k' g' found'
    exact ⟨onHeap, isGoal, place.imp_right fun due => (List.mem_cons.1 due).resolve_left here⟩
  · rwa [cleared] at held
  · dsimp only
    rw [closure, if_neg]
    · exact checking.same x (List.mem_cons_of_mem _ mem) notVar
    · rintro rfl
      exact absent mem
  · rw [HasGoal]
    dsimp only
    rw [closure, if_neg]
    · exact checking.stay x isVar has
    · rintro rfl
      exact notVar ((checking.isVar_iff x).2 isVar)
  · rw [HasGoal] at has
    dsimp only at has
    rw [closure] at has
    split_ifs at has with here
    · cases has
    refine (checking.origin x has).imp_right ?_
    rintro ⟨tag, isVar, k', mem, notDue, rest⟩
    exact ⟨tag, isVar, k', mem, fun mem' => notDue (List.mem_cons_of_mem _ mem'), rest⟩
  · obtain ⟨new', since⟩ := checking.since snap new since
    refine ⟨new', since.trail, since.size, since.hb, since.undo, since.kept,
      fun k' g' found' => ?_, since.low, fun k' has => ?_⟩
    · dsimp only
      rw [closure]
      split_ifs with here
      · rw [here]
        exact .inr ⟨rfl, notVar⟩
      · exact since.closures k' g' found'
    · rw [HasGoal] at has
      dsimp only at has
      rw [closure] at has
      split_ifs at has with here
      · cases has
      exact since.added k' has
  · rw [← checking.kept, List.filter_append, List.filter_append, List.filter_cons_of_neg]
    rw [isValued]
    exact Bool.false_ne_true
  · have taken : ((v, g) :: later).filter (fun p => valued s₀ p.1) =
        (v, g) :: later.filter fun p => valued s₀ p.1 :=
      List.filter_cons_of_pos isValued
    refine List.Perm.trans ?_ checking.woken
    rw [List.filter_append, List.filter_append, taken, List.map_append, List.map_append,
      List.map_cons]
    change ((s.started ++ [g]) ++ _).Perm _
    rw [List.append_assoc]
    apply List.Perm.append_left
    rw [List.singleton_append]
    exact List.perm_middle.symm

/-- A watched variable that is bound to an unbound one: what happens to the flags -/
structure Rewatched (s s' : Interpreter) (k t : ℕ) : Prop where
  refers : ∀ x, Refers s.mem s'.mem x
  other : ∀ x, x ≠ k → x ≠ t → s'.mem x = s.mem x
  there : (s'.mem t).tag = .RFW
  trail : s'.trail = if t < s.hb then t :: s.trail else s.trail
  size : s'.size = s.size
  hb : s'.hb = s.hb
  rest : s'.b = s.b ∧ s'.started = s.started

theorem rewatched (isVar : IsVar s.mem t) (apart : t ≠ k) :
    Rewatched s ((s.setFrozenClosure t g).clearFrozenClosure k) k t where
  refers := fun x => (heapWatch_refers t true).trans (heapWatch_refers k false)
  other := fun x notHere notThere =>
    (heapWatch_of_ne false notHere).trans (heapWatch_of_ne true notThere)
  there := by
    change (heapWatch (heapWatch s.mem t true) k false t).tag = .RFW
    rw [heapWatch_of_ne false apart]
    exact heapWatch_tag isVar.1
  trail := rfl
  size := rfl
  hb := rfl
  rest := ⟨rfl, rfl⟩

/-- The closures after `check_frozen` has looked at a variable that is bound to an unbound one -/
structure Passed (s s' : Interpreter) (k t : ℕ) : Prop where
  here : s'.closures.lookup k = none
  there : HasGoal s' t
  other : ∀ x, x ≠ k → x ≠ t → s'.closures.lookup x = s.closures.lookup x
  stays : ∀ g, s.closures.lookup t = some g → s'.closures.lookup t = some g
  isGoal : ∀ g, s'.closures.lookup t = some g → g ≠ Cell.EMPTY_LIST

theorem Checking.pass (checking : Checking s₀ s h (k :: todo) pending)
    (bound : ¬ IsVar s₀.mem k) (isVar : IsVar s₀.mem t) (onHeap : t < s₀.size) (apart : t ≠ k)
    (rewatched : Rewatched s s' k t) (passed : Passed s s' k t) (held : Held s' pending)
    (origin : HasGoal s₀ t ∨ ∃ k' ∈ s₀.watched, k' ∉ todo ∧ HasGoal s₀ k' ∧ ¬ IsVar s₀.mem k' ∧
      Leads s₀ k' t) : Checking s₀ s' h todo pending := by
  obtain ⟨absent, once⟩ := List.nodup_cons.1 checking.sound.once
  have isVar' : IsVar s.mem t := (checking.isVar_iff t).2 isVar
  have bound' : ¬ IsVar s'.mem k := by
    rwa [(rewatched.refers k).isVar_iff, checking.isVar_iff]
  refine ⟨fun x => (checking.refers x).trans (rewatched.refers x),
    rewatched.size.trans checking.size, rewatched.rest.1.trans checking.b,
    ⟨fun k' g' found => ?_, held, once⟩, fun x mem notVar => ?_, fun x isVar has => ?_,
    fun x isVar tag => ?_, fun x has => ?_, fun snap new since => ?_, checking.kept, ?_⟩
  · have here : k' ≠ k := by
      rintro rfl
      cases passed.here.symm.trans found
    by_cases here' : k' = t
    · subst here'
      refine ⟨?_, passed.isGoal g' found, .inl ⟨rewatched.there, ?_⟩⟩
      · rw [rewatched.size, checking.size]
        exact onHeap
      · exact (rewatched.refers k').isVar_iff.2 isVar'
    · rw [passed.other k' here here'] at found
      obtain ⟨onHeap, isGoal, place⟩ := checking.sound.keys k' g' found
      refine ⟨onHeap.trans_eq rewatched.size.symm, isGoal, ?_⟩
      rw [rewatched.other k' here here', (rewatched.refers k').isVar_iff]
      exact place.imp_right fun due => (List.mem_cons.1 due).resolve_left here
  · rw [passed.other]
    · exact checking.same x (List.mem_cons_of_mem _ mem) notVar
    · rintro rfl
      exact absent mem
    · rintro rfl
      exact notVar isVar
  · by_cases here' : x = t
    · rw [here']
      exact passed.there
    · rw [HasGoal, passed.other x _ here']
      · exact checking.stay x isVar has
      · rintro rfl
        exact bound isVar
  · by_cases here' : x = t
    · rw [here']
      exact rewatched.there
    · rw [rewatched.other x _ here']
      · exact checking.flag x isVar tag
      · rintro rfl
        exact bound isVar
  · by_cases here' : x = t
    · subst here'
      exact origin.imp_right fun from' => ⟨rewatched.there, isVar, from'⟩
    · have here : x ≠ k := by
        rintro rfl
        rw [HasGoal, passed.here] at has
        cases has
      rw [HasGoal, passed.other x here here'] at has
      rw [rewatched.other x here here']
      refine (checking.origin x has).imp_right ?_
      rintro ⟨tag, isVar, k', mem, notDue, rest⟩
      exact ⟨tag, isVar, k', mem, fun mem' => notDue (List.mem_cons_of_mem _ mem'), rest⟩
  · obtain ⟨new', since⟩ := checking.since snap new since
    refine ⟨_, since.push isVar' rewatched.trail rewatched.size rewatched.hb
      (fun y _ => rewatched.refers y) (fun k' g' found => ?_) fun k' has => ?_⟩
    · by_cases here : k' = k
      · subst here
        exact .inr ⟨passed.here, bound'⟩
      · by_cases here' : k' = t
        · subst here'
          rcases since.closures k' g' found with found | gone
          · exact .inl (passed.stays g' found)
          · exact absurd isVar' gone.2
        · rw [passed.other k' here here', (rewatched.refers k').isVar_iff]
          exact since.closures k' g' found
    · by_cases here' : k' = t
      · exact .inr here'
      · have here : k' ≠ k := by
          rintro rfl
          rw [HasGoal, passed.here] at has
          cases has
        rw [HasGoal, passed.other k' here here'] at has
        exact .inl has
  · rw [rewatched.rest.2]
    exact checking.woken

theorem Checking.moved (checking : Checking s₀ s h (k :: todo) pending) (watched : k ∈ s₀.watched)
    (bound : ¬ IsVar s₀.mem k) (before : HasGoal s₀ k) (found : s.closures.lookup k = some g)
    (way : Leads s₀ k t) (isVar : IsVar s₀.mem t) (none : ¬ HasGoal s t) (apart : t ≠ k) :
    Checking s₀ ((s.setFrozenClosure t g).clearFrozenClosure k) h todo pending := by
  have rewatched : Rewatched s ((s.setFrozenClosure t g).clearFrozenClosure k) k t :=
    rewatched ((checking.isVar_iff t).2 isVar) apart
  have closures : ((s.setFrozenClosure t g).clearFrozenClosure k).closures =
      (s.closures.insert t g).erase k :=
    congrArg (fun closures => closures.erase k) (setFrozenClosure_closures none g)
  have closure (x : ℕ) : ((s.setFrozenClosure t g).clearFrozenClosure k).closures.lookup x =
      if x = k then Option.none else if x = t then some g else s.closures.lookup x := by
    rw [closures, lookup_erase_ite, lookup_insert_ite]
  have there : ((s.setFrozenClosure t g).clearFrozenClosure k).closures.lookup t = some g := by
    rw [closure, if_neg apart, if_pos rfl]
  apply checking.pass bound isVar way.lt apart rewatched
  · refine ⟨?_, hasGoal_iff.2 ⟨g, there⟩, fun x here here' => ?_, fun g' found' => ?_,
      fun g' found' => ?_⟩
    · rw [closure, if_pos rfl]
    · rw [closure, if_neg here, if_neg here']
    · exact absurd (hasGoal_iff.2 ⟨g', found'⟩) none
    · rw [← Option.some.inj (there.symm.trans found')]
      exact (checking.sound.keys k g found).2.1
  · exact checking.sound.held.move found (checking.leads way) none le_rfl closures rewatched.refers
  · exact .inr ⟨k, watched, (List.nodup_cons.1 checking.sound.once).1, before, bound, way⟩

theorem Checking.spared (checking : Checking s₀ s h (k :: todo) pending)
    (bound : ¬ IsVar s₀.mem k) (none : ¬ HasGoal s k) (onHeap : t < s₀.size)
    (isVar : IsVar s₀.mem t) (has : HasGoal s₀ t) (apart : t ≠ k) :
    Checking s₀ ((s.setFrozenClosure t g).clearFrozenClosure k) h todo pending := by
  have rewatched : Rewatched s ((s.setFrozenClosure t g).clearFrozenClosure k) k t :=
    rewatched ((checking.isVar_iff t).2 isVar) apart
  have has' : HasGoal s t := checking.stay t isVar has
  have closures : ((s.setFrozenClosure t g).clearFrozenClosure k).closures = s.closures := by
    have same : (s.setFrozenClosure t g).closures = s.closures := if_pos has'
    change (s.setFrozenClosure t g).closures.erase k = _
    rw [same, erase_of_lookup_none (Option.not_isSome_iff_eq_none.1 none)]
  apply checking.pass bound isVar onHeap apart rewatched
  · refine ⟨?_, ?_, fun x _ _ => ?_, fun g' found' => ?_, fun g' found' => ?_⟩
    · rw [closures]
      exact Option.not_isSome_iff_eq_none.1 none
    · rwa [HasGoal, closures]
    · rw [closures]
    · rwa [closures]
    · rw [closures] at found'
      exact (checking.sound.keys t g' found').2.1
  · exact checking.sound.held.congr le_rfl closures fun x _ _ => rewatched.refers x
  · exact .inl has

theorem Checking.before (checking : Checking s₀ s h (k :: todo) pending)
    (bound : ¬ IsVar s₀.mem k) : HasGoal s k ↔ HasGoal s₀ k := by
  rw [HasGoal, HasGoal, checking.same k List.mem_cons_self bound]

theorem deref_isVar {mem : ℕ → Cell} {n : ℕ} {d : Cell} (isVar : IsVar mem k)
    (derefs : deref mem (n + 1) (mem k) = some d) : d = mem k := by
  unfold deref at derefs
  rw [if_pos isVar.1, if_pos (congrArg mem isVar.2)] at derefs
  exact (Option.some.inj derefs).symm

theorem Checking.target (checking : Checking s₀ s h (k :: todo) pending)
    (watched : k ∈ s₀.watched) (checkable : Checkable s₀) (bound : ¬ IsVar s₀.mem k)
    (isRef : (s.mem k).tag.isRef = true) :
    ∃ t, Leads s₀ k t ∧ IsVar s₀.mem t ∧ t ≠ k ∧
      (HasGoal s k ∧ ¬ HasGoal s t ∨ ¬ HasGoal s k ∧ HasGoal s₀ t) ∧
      deref s.mem (s.size + 1) (s.mem k) = some (s.mem t) := by
  have isRef₀ : (s₀.mem k).tag.isRef = true := (checking.refers k).isRef.symm.trans isRef
  have other {t : ℕ} (isVar : IsVar s₀.mem t) : t ≠ k := by
    rintro rfl
    exact bound isVar
  by_cases has : HasGoal s k
  · have before := (checking.before bound).1 has
    obtain ⟨t, way, isVar, none⟩ := checkable.leads k watched before isRef₀ bound
    refine ⟨t, way, isVar, other isVar, .inl ⟨has, fun has' => ?_⟩,
      (checking.leads way).deref_var ((checking.isVar_iff t).2 isVar)⟩
    rcases checking.origin t has' with old | ⟨_, _, k', mem, notDue, old, bound', way'⟩
    · exact none old
    · obtain rfl := checkable.apart k watched k' mem before old bound bound' t isVar way way'
      exact notDue List.mem_cons_self
  · obtain ⟨t, way, isVar, has'⟩ :=
      checkable.rest k watched (mt (checking.before bound).2 has) isRef₀ bound
    exact ⟨t, way, isVar, other isVar, .inr ⟨has, has'⟩,
      (checking.leads way).deref_var ((checking.isVar_iff t).2 isVar)⟩

theorem Checking.step (checking : Checking s₀ s h (k :: todo) pending) (watched : k ∈ s₀.watched)
    (checkable : Checkable s₀) (ran : s.checkOne k = some s') :
    ∃ pending', Checking s₀ s' h todo pending' := by
  unfold Interpreter.checkOne at ran
  dsimp only at ran
  split_ifs at ran with isRef isGoal
  · obtain ⟨h2, derefs, ran⟩ := Option.bind_eq_some_iff.1 ran
    split_ifs at ran with another
    · cases ran
      have bound : ¬ IsVar s₀.mem k := by
        rw [← checking.isVar_iff]
        intro isVar
        rw [deref_isVar isVar derefs] at another
        exact another.2 isVar.2
      obtain ⟨t, way, isVar, apart, goals, derefs'⟩ := checking.target watched checkable bound isRef
      obtain rfl := Option.some.inj (derefs.symm.trans derefs')
      rw [((checking.isVar_iff t).2 isVar).2]
      refine ⟨pending, ?_⟩
      rcases goals with ⟨has, none⟩ | ⟨none, has⟩
      · obtain ⟨g, found⟩ := hasGoal_iff.1 has
        rw [found]
        have before := (checking.before bound).1 has
        exact checking.moved watched bound before found way isVar none apart
      · exact checking.spared bound none way.lt isVar has apart
    · cases ran
      refine ⟨pending, checking.idle fun has => ?_⟩
      have isVar : IsVar s₀.mem k := by
        by_contra bound
        obtain ⟨t, _, isVar, apart, _, derefs'⟩ := checking.target watched checkable bound isRef
        obtain rfl := Option.some.inj (derefs.symm.trans derefs')
        have isVar' := (checking.isVar_iff t).2 isVar
        exact another ⟨isVar'.1, fun same => apart (isVar'.2.symm.trans same)⟩
      refine ⟨?_, (checking.isVar_iff k).2 isVar⟩
      rcases checking.origin k has with old | ⟨tag, _⟩
      · exact checking.flag k isVar (checkable.flagged k watched old isVar)
      · exact tag
  · cases ran
    have notRef : (s.mem k).tag.isRef = false := Bool.eq_false_iff.2 isRef
    rcases found : s.closures.lookup k with _ | g
    · rw [found] at isGoal
      exact absurd rfl isGoal
    · exact checking.wake found notRef
  · cases ran
    have notRef : (s.mem k).tag.isRef = false := Bool.eq_false_iff.2 isRef
    rcases found : s.closures.lookup k with _ | g
    · have same : s.clearFrozenClosure k = s := by
        unfold Interpreter.clearFrozenClosure
        rw [heapWatch_notRef false notRef, erase_of_lookup_none found]
      rw [same]
      refine ⟨pending, checking.idle fun has => ?_⟩
      obtain ⟨g, found'⟩ := hasGoal_iff.1 has
      exact nomatch found.symm.trans found'
    · rw [found] at isGoal
      exact absurd (checking.sound.keys k g found).2.1 isGoal

theorem Checking.fold {todo : List ℕ} (checking : Checking s₀ s h todo pending)
    (watched : ∀ k ∈ todo, k ∈ s₀.watched) (checkable : Checkable s₀)
    (ran : todo.foldlM Interpreter.checkOne s = some s') :
    ∃ pending', Checking s₀ s' h [] pending' := by
  induction todo generalizing s pending with
  | nil =>
    cases ran
    exact ⟨pending, checking⟩
  | cons k todo ih =>
    rw [List.foldlM_cons] at ran
    obtain ⟨s₁, one, rest⟩ := Option.bind_eq_some_iff.1 ran
    obtain ⟨pending', checking'⟩ := checking.step (watched k List.mem_cons_self) checkable one
    exact ih checking' (fun k' mem => watched k' (List.mem_cons_of_mem _ mem)) rest

theorem Sound.checking (sound : Sound s h.pending s.watched) (started : s.started.Perm h.started) :
    Checking s s h s.watched.reverse h.pending where
  refers := fun _ => .inl rfl
  size := rfl
  b := rfl
  sound := by
    refine ⟨fun k g found => ?_, sound.held, List.nodup_reverse.2 sound.once⟩
    rw [List.mem_reverse]
    exact sound.keys k g found
  same := fun _ _ _ => rfl
  stay := fun _ _ has => has
  flag := fun _ _ tag => tag
  origin := fun _ => .inl
  since := fun _ new since => ⟨new, since⟩
  kept := rfl
  woken := started.append_right _

theorem Checking.done (checking : Checking s₀ s h [] pending) :
    pending = (h.pending.filter fun p => !valued s₀ p.1) ∧
      s.started.Perm (h.started ++ (h.pending.filter fun p => valued s₀ p.1).map Prod.snd) := by
  have unbound : ∀ p ∈ pending, valued s₀ p.1 = false := by
    obtain ⟨goals, listed, _, keys, leads⟩ := checking.sound.held
    rw [listed]
    intro p mem
    obtain ⟨⟨v, k, g⟩, inGoals, rfl⟩ := List.mem_map.1 mem
    obtain ⟨_, _, place⟩ := checking.sound.keys k g ((keys k g).2 ⟨v, inGoals⟩)
    have isVar := (place.resolve_right List.not_mem_nil).2
    exact (checking.leads_back (leads v k g inGoals)).not_valued ((checking.isVar_iff k).1 isVar)
  constructor
  · rw [← checking.kept, List.filter_eq_self.2]
    intro p mem
    rw [unbound p mem]
    rfl
  · have none : (pending.filter fun p => valued s₀ p.1) = [] := by
      rw [List.filter_eq_nil_iff]
      intro p mem
      rw [unbound p mem]
      exact nofun
    have woken := checking.woken
    rwa [none, List.map_nil, List.append_nil] at woken

end Check

end Epilog.Interp.Coroutines
