/- Module: Epilog/Lib/Fuel
   source: none (library)
   digest: Computations with fuel, and the post-order traversal of a graph that unfolds lazily. -/

import Epilog.Lib.Run
import Mathlib.Data.List.Forall2

set_option autoImplicit false

namespace Epilog.Lib.Fuel

open Epilog.Lib.Run

/-- Why a computation with fuel gives no value. -/
inductive Halt (ε : Type)
  | thrown (e : ε)
  /-- More fuel may still help. -/
  | starved
  deriving DecidableEq

section Settling

variable {ε α β σ : Type}

/-- A value that may be missing for want of fuel. -/
def fetch : Option α → Except (Halt ε) α
  | some a => .ok a
  | none => .error .starved

theorem fetch_ok {x : Option α} {a : α} (found : (fetch x : Except (Halt ε) α) = .ok a) :
    x = some a := by
  cases x with
  | none => exact nomatch found
  | some b =>
    have same : b = a := Except.ok.inj found
    rw [same]

theorem fetch_not_thrown (x : Option α) (e : ε) : fetch x ≠ .error (.thrown e) := by
  cases x <;> exact nofun

/-- Enough fuel finds the value. -/
def Finds (x : ℕ → Option α) (a : α) : Prop := ∃ n, x n = some a

/-- What is found stays found with more fuel. -/
def Lasting (x : ℕ → Option α) : Prop := ∀ n m a, n ≤ m → x n = some a → x m = some a

theorem Finds.unique {x : ℕ → Option α} (lasting : Lasting x) {a b : α} (first : Finds x a)
    (second : Finds x b) : a = b := by
  obtain ⟨n, first⟩ := first
  obtain ⟨m, second⟩ := second
  have one := lasting n (max n m) a (Nat.le_max_left n m) first
  have other := lasting m (max n m) b (Nat.le_max_right n m) second
  exact Option.some.inj (one.symm.trans other)

theorem lasting_of_succ {x : ℕ → Option α}
    (step : ∀ n a, x n = some a → x (n + 1) = some a) : Lasting x := by
  intro n m a more found
  induction more with
  | refl => exact found
  | step _ ih => exact step _ a ih

theorem Lasting.const (r : Option α) : Lasting fun _ => r := fun _ _ _ _ found => found

theorem Lasting.bind {x : ℕ → Option α} {f : α → ℕ → Option β} (first : Lasting x)
    (later : ∀ a, Lasting (f a)) : Lasting fun n => (x n).bind fun a => f a n := by
  intro n m b more found
  obtain ⟨a, atA, found⟩ := Option.bind_eq_some_iff.1 found
  exact Option.bind_eq_some_iff.2 ⟨a, first n m a more atA, later a n m b more found⟩

theorem Lasting.ite {c : Prop} [Decidable c] {x y : ℕ → Option α} (yes : Lasting x)
    (no : Lasting y) : Lasting fun n => if c then x n else y n := by
  by_cases holds : c
  · simp only [if_pos holds]
    exact yes
  · simp only [if_neg holds]
    exact no

theorem Lasting.foldlM {f : ℕ → σ → β → Option σ} (each : ∀ s b, Lasting fun n => f n s b)
    (l : List β) (s : σ) : Lasting fun n => l.foldlM (f n) s := by
  induction l generalizing s with
  | nil => exact .const _
  | cons b l ih =>
    simp only [List.foldlM_cons]
    exact (each s b).bind ih

theorem finds_bind {x : ℕ → Option α} {f : α → ℕ → Option β} {a : α} {b : β}
    (lasting : Lasting x) (lasting' : Lasting (f a)) (first : Finds x a) (later : Finds (f a) b) :
    Finds (fun n => (x n).bind fun a => f a n) b := by
  obtain ⟨n, first⟩ := first
  obtain ⟨m, later⟩ := later
  refine ⟨max n m, Option.bind_eq_some_iff.2 ⟨a, ?_, ?_⟩⟩
  · exact lasting n _ a (Nat.le_max_left n m) first
  · exact lasting' m _ b (Nat.le_max_right n m) later

theorem mapM_eq_some {f : α → Option β} {l : List α} {l' : List β} :
    l.mapM f = some l' ↔ List.Forall₂ (fun a b => f a = some b) l l' := by
  induction l generalizing l' with
  | nil =>
    rw [List.mapM_nil, List.forall₂_nil_left_iff]
    exact ⟨fun done => (Option.some.inj done).symm, fun empty => by rw [empty]; rfl⟩
  | cons a l ih =>
    rw [List.mapM_cons, List.forall₂_cons_left_iff]
    constructor
    · intro done
      obtain ⟨b, first, done⟩ := Option.bind_eq_some_iff.1 done
      obtain ⟨bs, later, done⟩ := Option.bind_eq_some_iff.1 done
      exact ⟨b, bs, first, ih.1 later, (Option.some.inj done).symm⟩
    · rintro ⟨b, bs, first, later, rfl⟩
      exact Option.bind_eq_some_iff.2 ⟨b, first, Option.bind_eq_some_iff.2 ⟨bs, ih.2 later, rfl⟩⟩

/-- Enough fuel for each element of a list is enough for the list. -/
theorem finds_mapM {f : α → ℕ → Option β} (lasting : ∀ a, Lasting (f a)) {l : List α}
    (each : ∀ a ∈ l, ∃ b, Finds (f a) b) :
    ∃ bs, Finds (fun n => l.mapM fun a => f a n) bs := by
  induction l with
  | nil => exact ⟨[], 0, rfl⟩
  | cons a l ih =>
    obtain ⟨b, n, first⟩ := each a List.mem_cons_self
    obtain ⟨bs, m, later⟩ := ih fun a' mem => each a' (List.mem_cons_of_mem a mem)
    refine ⟨b :: bs, max n m, mapM_eq_some.2 (.cons ?_ ?_)⟩
    · exact lasting a n _ b (Nat.le_max_left n m) first
    · exact (mapM_eq_some.1 later).imp fun a' b' found =>
        lasting a' m _ b' (Nat.le_max_right n m) found

/-- Any amount of fuel from some point on gives this result. -/
def Settles (x : ℕ → Except (Halt ε) α) (r : Except (Halt ε) α) : Prop :=
  ∃ n, ∀ m, n ≤ m → x m = r

theorem settles_fetch {x : ℕ → Option α} (lasting : Lasting x) {a : α} (found : Finds x a) :
    Settles (ε := ε) (fun n => fetch (x n)) (.ok a) := by
  obtain ⟨n, found⟩ := found
  refine ⟨n, fun m enough => ?_⟩
  dsimp only
  rw [lasting n m a enough found]
  rfl

theorem Settles.const (r : Except (Halt ε) α) : Settles (fun _ => r) r := ⟨0, fun _ _ => rfl⟩

theorem Settles.bind {x : ℕ → Except (Halt ε) α} {a : α} {f : ℕ → α → Except (Halt ε) β}
    {r : Except (Halt ε) β} (first : Settles x (.ok a)) (later : Settles (fun n => f n a) r) :
    Settles (fun n => x n >>= f n) r := by
  obtain ⟨n, first⟩ := first
  obtain ⟨m, later⟩ := later
  refine ⟨max n m, fun k enough => ?_⟩
  dsimp only
  rw [first k (Nat.le_trans (Nat.le_max_left n m) enough)]
  exact later k (Nat.le_trans (Nat.le_max_right n m) enough)

theorem Settles.bind_error {x : ℕ → Except (Halt ε) α} {e : Halt ε}
    {f : ℕ → α → Except (Halt ε) β} (first : Settles x (.error e)) :
    Settles (fun n => x n >>= f n) (.error e) := by
  obtain ⟨n, first⟩ := first
  refine ⟨n, fun k enough => ?_⟩
  dsimp only
  rw [first k enough]
  rfl

/-- A loop whose every turn settles to a value settles to a value. -/
theorem Settles.foldlM {β : Type} {f : ℕ → σ → β → Except (Halt ε) σ} {l : List β}
    (each : ∀ b ∈ l, ∀ s, ∃ s', Settles (fun n => f n s b) (.ok s')) (s : σ) :
    ∃ s', Settles (fun n => l.foldlM (f n) s) (.ok s') := by
  induction l generalizing s with
  | nil => exact ⟨s, .const _⟩
  | cons b l ih =>
    obtain ⟨s', first⟩ := each b List.mem_cons_self s
    obtain ⟨s'', later⟩ := ih (fun b' mem => each b' (List.mem_cons_of_mem b mem)) s'
    refine ⟨s'', ?_⟩
    simp only [List.foldlM_cons]
    exact first.bind later

end Settling

section Traverse

variable {α ν σ ε : Type} (expand : α → ℕ → Option (ν × List α))

/-- Visit what lies below `a` from left to right, and then `a` itself. -/
def traverse (visit : ν → σ → ℕ → Except (Halt ε) σ) : ℕ → α → σ → Except (Halt ε) σ
  | 0, _, _ => .error .starved
  | n + 1, a, s => do
    let (v, below) ← fetch (expand a n)
    let s ← below.foldlM (fun s b => traverse visit n b s) s
    visit v s n

/-- A node that the traversal of `a` comes to, if nothing keeps it from going on. -/
inductive Occurs (w : ν) : α → Prop
  | root {a : α} {below : List α} (here : Finds (expand a) (w, below)) : Occurs w a
  | inside {a b : α} {v : ν} {below : List α} (here : Finds (expand a) (v, below))
      (mem : b ∈ below) (occurs : Occurs w b) : Occurs w a

/-- The traversal of `a` is finite and all its nodes are `ok`. -/
inductive Through (ok : ν → Prop) : α → Prop
  | node {a : α} {v : ν} {below : List α} (here : Finds (expand a) (v, below))
      (all : ∀ b ∈ below, Through ok b) (good : ok v) : Through ok a

/-- The traversal of `a` comes to a `bad` node, and all nodes before it are `ok`. -/
inductive Stopped (ok bad : ν → Prop) : α → Prop
  | root {a : α} {v : ν} {below : List α} (here : Finds (expand a) (v, below))
      (all : ∀ b ∈ below, Through expand ok b) (fails : bad v) : Stopped ok bad a
  | inside {a b : α} {v : ν} {before after : List α}
      (here : Finds (expand a) (v, before ++ b :: after))
      (all : ∀ b' ∈ before, Through expand ok b') (stopped : Stopped ok bad b) : Stopped ok bad a

variable {expand}

theorem Occurs.of_stopped {ok bad : ν → Prop} {a : α} (stopped : Stopped expand ok bad a) :
    ∃ w, Occurs expand w a ∧ bad w := by
  induction stopped with
  | root here _ fails => exact ⟨_, .root here, fails⟩
  | inside here _ _ ih =>
    obtain ⟨w, occurs, fails⟩ := ih
    exact ⟨w, .inside here (by simp) occurs, fails⟩

theorem Through.imp {ok ok' : ν → Prop} {a : α} (through : Through expand ok a)
    (weaker : ∀ v, ok v → ok' v) : Through expand ok' a := by
  induction through with
  | node here _ good ih => exact .node here ih (weaker _ good)

/-- In a finite traversal every node that occurs is visited. -/
theorem Through.of_occurs (lasting : ∀ a, Lasting (expand a)) {ok : ν → Prop} {a : α}
    (through : Through expand ok a) {w : ν} (occurs : Occurs expand w a) : ok w := by
  induction through with
  | node here all good ih =>
    cases occurs with
    | root here' =>
      have same := here.unique (lasting _) here'
      rw [Prod.mk.injEq] at same
      rw [← same.1]
      exact good
    | inside here' mem occurs =>
      have same := here.unique (lasting _) here'
      rw [Prod.mk.injEq] at same
      exact ih _ (same.2 ▸ mem) occurs

/-- What holds of all nodes that occur holds of the nodes of the traversal. -/
theorem Through.and_occurs {ok p : ν → Prop} {a : α}
    (through : Through expand ok a) (all : ∀ w, Occurs expand w a → p w) :
    Through expand (fun v => ok v ∧ p v) a := by
  induction through with
  | node here _ good ih =>
    exact .node here (fun b mem => ih b mem fun w occurs => all w (.inside here mem occurs))
      ⟨good, all _ (.root here)⟩

/-- A list of finite traversals is passed as a whole, or stops at a first member. -/
theorem all_or_first {p q : α → Prop} {l : List α} (each : ∀ b ∈ l, p b ∨ q b) :
    (∀ b ∈ l, p b) ∨ ∃ before b after, l = before ++ b :: after ∧ (∀ b' ∈ before, p b') ∧ q b := by
  induction l with
  | nil => exact .inl nofun
  | cons b l ih =>
    rcases each b List.mem_cons_self with good | bad
    · rcases ih fun b' mem => each b' (List.mem_cons_of_mem b mem) with all | found
      · exact .inl (List.forall_mem_cons.2 ⟨good, all⟩)
      · obtain ⟨before, b', after, rfl, all, bad⟩ := found
        exact .inr ⟨b :: before, b', after, rfl, List.forall_mem_cons.2 ⟨good, all⟩, bad⟩
    · exact .inr ⟨[], b, l, rfl, nofun, bad⟩

theorem through_or_stopped {ok ok' bad : ν → Prop} (splits : ∀ v, ok' v → ok v ∨ bad v) {a : α}
    (through : Through expand ok' a) : Through expand ok a ∨ Stopped expand ok bad a := by
  induction through with
  | node here _ good ih =>
    rcases all_or_first ih with all | ⟨before, b, after, rfl, all, stopped⟩
    · rcases splits _ good with good | fails
      · exact .inl (.node here all good)
      · exact .inr (.root here all fails)
    · exact .inr (.inside here all stopped)

/-- The first bad node is the one that matters. -/
theorem Stopped.first {ok ok' bad : ν → Prop} (splits : ∀ v, ok' v → ok v ∨ bad v) {a : α}
    (stopped : Stopped expand ok' bad a) : Stopped expand ok bad a := by
  induction stopped with
  | root here all fails =>
    rcases all_or_first fun b mem => through_or_stopped splits (all b mem) with
      all | ⟨before, b, after, rfl, all, stopped⟩
    · exact .root here all fails
    · exact .inside here all stopped
  | inside here all _ ih =>
    rcases all_or_first fun b mem => through_or_stopped splits (all b mem) with
      all | ⟨before, b, after, rfl, all, stopped⟩
    · exact .inside here all ih
    · rw [List.append_assoc, List.cons_append] at here
      exact .inside here all stopped

theorem Stopped.imp {ok ok' bad bad' : ν → Prop} {a : α} (stopped : Stopped expand ok bad a)
    (weaker : ∀ v, ok v → ok' v) (weaker' : ∀ v, bad v → bad' v) :
    Stopped expand ok' bad' a := by
  induction stopped with
  | root here all fails =>
    exact .root here (fun b mem => (all b mem).imp weaker) (weaker' _ fails)
  | inside here all _ ih => exact .inside here (fun b mem => (all b mem).imp weaker) ih

/-- In a finite traversal a node that occurs is come to. -/
theorem Stopped.of_occurs (lasting : ∀ a, Lasting (expand a)) {ok bad : ν → Prop} {a : α}
    (through : Through expand ok a) {w : ν} (occurs : Occurs expand w a) (fails : bad w) :
    Stopped expand ok bad a := by
  induction through with
  | node here all _ ih =>
    cases occurs with
    | root here' =>
      have same := here.unique (lasting _) here'
      rw [Prod.mk.injEq] at same
      exact .root here all (same.1 ▸ fails)
    | inside here' mem occurs =>
      have same := here.unique (lasting _) here'
      rw [Prod.mk.injEq] at same
      obtain ⟨before, after, split⟩ := List.append_of_mem (same.2 ▸ mem)
      refine .inside (split ▸ here) (fun b' mem' => all b' ?_) (ih _ (same.2 ▸ mem) occurs)
      rw [split]
      exact List.mem_append_left _ mem'

section Runs

variable {visit : ν → σ → ℕ → Except (Halt ε) σ}

/-- A traversal that ends has visited a finite graph, and one that throws has come to a node whose
visit throws. -/
theorem traverse_inv (expand : α → ℕ → Option (ν × List α))
    (visit : ν → σ → ℕ → Except (Halt ε) σ) (ok bad : ν → Prop)
    (passes : ∀ v s n s', visit v s n = .ok s' → ok v)
    (throws : ∀ v s n e, visit v s n = .error (.thrown e) → bad v) (n : ℕ) (a : α) (s : σ) :
    (∀ s', traverse expand visit n a s = .ok s' → Through expand ok a) ∧
      ∀ e, traverse expand visit n a s = .error (.thrown e) → Stopped expand ok bad a := by
  induction n generalizing a s with
  | zero => exact ⟨nofun, nofun⟩
  | succ n ih =>
    -- the loop over what lies below
    have loop : ∀ (l : List α) (s : σ),
        (∀ s', l.foldlM (fun s b => traverse expand visit n b s) s = .ok s' →
          ∀ b ∈ l, Through expand ok b) ∧
        ∀ e, l.foldlM (fun s b => traverse expand visit n b s) s = .error (.thrown e) →
          ∃ before b after, l = before ++ b :: after ∧ (∀ b' ∈ before, Through expand ok b') ∧
            Stopped expand ok bad b := by
      intro l
      induction l with
      | nil => exact fun _ => ⟨fun _ _ => nofun, nofun⟩
      | cons b l ihl =>
        intro s
        simp only [List.foldlM_cons]
        refine ⟨fun s' done => ?_, fun e failed => ?_⟩
        · obtain ⟨s₁, first, done⟩ := bind_ok done
          exact List.forall_mem_cons.2 ⟨(ih b s).1 s₁ first, (ihl s₁).1 s' done⟩
        · rcases bind_error failed with first | ⟨s₁, first, failed⟩
          · exact ⟨[], b, l, rfl, nofun, (ih b s).2 e first⟩
          · obtain ⟨before, b', after, rfl, all, stopped⟩ := (ihl s₁).2 e failed
            exact ⟨b :: before, b', after, rfl,
              List.forall_mem_cons.2 ⟨(ih b s).1 s₁ first, all⟩, stopped⟩
    simp only [traverse]
    refine ⟨fun s' done => ?_, fun e failed => ?_⟩
    · obtain ⟨⟨v, below⟩, found, done⟩ := bind_ok done
      obtain ⟨s₁, ran, done⟩ := bind_ok done
      exact .node ⟨n, fetch_ok found⟩ ((loop below s).1 s₁ ran) (passes v s₁ n s' done)
    · rcases bind_error failed with missing | ⟨⟨v, below⟩, found, failed⟩
      · exact absurd missing (fetch_not_thrown _ e)
      · have here : Finds (expand a) (v, below) := ⟨n, fetch_ok found⟩
        rcases bind_error failed with early | ⟨s₁, ran, late⟩
        · obtain ⟨before, b, after, rfl, all, stopped⟩ := (loop below s).2 e early
          exact .inside here all stopped
        · exact .root here ((loop below s).1 s₁ ran) (throws v s₁ n e late)

/-- Visits that throw nothing make a traversal that throws nothing. -/
theorem traverse_quiet (quiet : ∀ v s n e, visit v s n ≠ .error (.thrown e)) (n : ℕ) (a : α)
    (s : σ) (e : ε) : traverse expand visit n a s ≠ .error (.thrown e) := by
  intro failed
  have inverse := traverse_inv expand visit (fun _ => True) (fun _ => False)
    (fun _ _ _ _ _ => trivial) (fun v s n e thrown => quiet v s n e thrown) n a s
  obtain ⟨w, _, absurd⟩ := Occurs.of_stopped (inverse.2 e failed)
  exact absurd

/-- What the visits add up to: a property of the state that each visit keeps or brings about. -/
theorem traverse_adds (lasting : ∀ a, Lasting (expand a)) {holds : σ → Prop} {adds : ν → Prop}
    (each : ∀ v s n s', visit v s n = .ok s' → (holds s' ↔ holds s ∨ adds v)) (n : ℕ) (a : α)
    (s s' : σ) (done : traverse expand visit n a s = .ok s') :
    holds s' ↔ holds s ∨ ∃ w, Occurs expand w a ∧ adds w := by
  induction n generalizing a s s' with
  | zero => exact nomatch done
  | succ n ih =>
    have loop : ∀ (l : List α) (s s' : σ),
        l.foldlM (fun s b => traverse expand visit n b s) s = .ok s' →
          (holds s' ↔ holds s ∨ ∃ b ∈ l, ∃ w, Occurs expand w b ∧ adds w) := by
      intro l
      induction l with
      | nil =>
        intro s s' done
        have same : s = s' := Except.ok.inj done
        simp [same]
      | cons b l ihl =>
        intro s s' done
        simp only [List.foldlM_cons] at done
        obtain ⟨s₁, first, done⟩ := bind_ok done
        rw [ihl s₁ s' done, ih b s s₁ first, or_assoc]
        simp
    simp only [traverse] at done
    obtain ⟨⟨v, below⟩, found, done⟩ := bind_ok done
    obtain ⟨s₁, ran, done⟩ := bind_ok done
    have here : Finds (expand a) (v, below) := ⟨n, fetch_ok found⟩
    rw [each v s₁ n s' done, loop below s s₁ ran, or_assoc]
    refine or_congr_right ⟨?_, ?_⟩
    · rintro (⟨b, mem, w, occurs, added⟩ | added)
      · exact ⟨w, .inside here mem occurs, added⟩
      · exact ⟨v, .root here, added⟩
    · rintro ⟨w, occurs, added⟩
      cases occurs with
      | root here' =>
        have same := here.unique (lasting a) here'
        rw [Prod.mk.injEq] at same
        exact .inr (same.1 ▸ added)
      | inside here' mem occurs =>
        have same := here.unique (lasting a) here'
        rw [Prod.mk.injEq] at same
        exact .inl ⟨_, same.2 ▸ mem, w, occurs, added⟩

/-- An invariant of the visits is one of the traversal. -/
theorem traverse_keeps {inv : σ → Prop}
    (each : ∀ v s n s', inv s → visit v s n = .ok s' → inv s') {n : ℕ} {a : α} {s s' : σ}
    (start : inv s) (done : traverse expand visit n a s = .ok s') : inv s' := by
  induction n generalizing a s s' with
  | zero => exact nomatch done
  | succ n ih =>
    have loop : ∀ (l : List α) (s s' : σ), inv s →
        l.foldlM (fun s b => traverse expand visit n b s) s = .ok s' → inv s' := by
      intro l
      induction l with
      | nil =>
        intro s s' start done
        exact Except.ok.inj done ▸ start
      | cons b l ihl =>
        intro s s' start done
        simp only [List.foldlM_cons] at done
        obtain ⟨s₁, first, done⟩ := bind_ok done
        exact ihl s₁ s' (ih start first) done
    simp only [traverse] at done
    obtain ⟨⟨v, below⟩, _, done⟩ := bind_ok done
    obtain ⟨s₁, ran, done⟩ := bind_ok done
    exact each v s₁ n s' (loop below s s₁ start ran) done

private theorem Settles.later {f : ℕ → Except (Halt ε) σ} {g : ℕ → Except (Halt ε) σ}
    {r : Except (Halt ε) σ} (settles : Settles f r) (next : ∀ n, g (n + 1) = f n) :
    Settles g r := by
  obtain ⟨n, settles⟩ := settles
  refine ⟨n + 1, fun m enough => ?_⟩
  obtain ⟨m, rfl⟩ : ∃ k, m = k + 1 := ⟨m - 1, by omega⟩
  rw [next]
  exact settles m (by omega)

/-- A finite traversal ends, when its visits do. -/
theorem Through.settles (visit : ν → σ → ℕ → Except (Halt ε) σ) (lasting : ∀ a, Lasting (expand a)) {ok : ν → Prop}
    (ends : ∀ v, ok v → ∀ s, ∃ s', Settles (visit v s) (.ok s')) {a : α}
    (through : Through expand ok a) (s : σ) :
    ∃ s', Settles (fun n => traverse expand visit n a s) (.ok s') := by
  induction through generalizing s with
  | node here _ good ih =>
    obtain ⟨s₁, ran⟩ := Settles.foldlM ih s
    obtain ⟨s', visited⟩ := ends _ good s₁
    refine ⟨s', Settles.later ?_ fun n => rfl⟩
    exact (settles_fetch (lasting _) here).bind (ran.bind visited)

/-- A traversal that comes to a node whose visit throws will throw. -/
theorem Stopped.settles (visit : ν → σ → ℕ → Except (Halt ε) σ) (lasting : ∀ a, Lasting (expand a)) {ok bad : ν → Prop} {e : ε}
    (ends : ∀ v, ok v → ∀ s, ∃ s', Settles (visit v s) (.ok s'))
    (throws : ∀ v, bad v → ∀ s, Settles (visit v s) (.error (.thrown e))) {a : α}
    (stopped : Stopped expand ok bad a) (s : σ) :
    Settles (fun n => traverse expand visit n a s) (.error (.thrown e)) := by
  induction stopped generalizing s with
  | root here all fails =>
    obtain ⟨s₁, ran⟩ := Settles.foldlM (fun b mem => (all b mem).settles visit lasting ends) s
    apply Settles.later ?_ fun n => rfl
    exact (settles_fetch (lasting _) here).bind (ran.bind (throws _ fails s₁))
  | inside here all _ ih =>
    obtain ⟨s₁, ran⟩ := Settles.foldlM (fun b mem => (all b mem).settles visit lasting ends) s
    apply Settles.later ?_ fun n => rfl
    refine (settles_fetch (lasting _) here).bind (Settles.bind_error ?_)
    simp only [List.foldlM_append, List.foldlM_cons]
    exact ran.bind (ih s₁).bind_error

end Runs

end Traverse

end Epilog.Lib.Fuel
