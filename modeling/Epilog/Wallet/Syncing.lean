/- Module: Epilog/Wallet/Syncing
   source: src/src/wallet/wallet_interpreter.cpp (sync, sync_all, resync, '$cache_addresses',
     '$new_utxo_closure'), src/src/interp/builtins.cpp (frozenk_3, functor_3, arg_3, retractall_1)
   digest: The scan of a wallet for payments: which closures it records, and which it misses. -/

import Epilog.Wallet.Spending
import Epilog.Lib.AddressRange

set_option autoImplicit false

namespace Epilog.Wallet.Syncing

open Epilog.Lib.AddressRange

section Source

/-- A term as it comes from the node; of the bignums only equality matters. -/
inductive Term (Address : Type)
  | var (n : ℕ)
  | int (v : ℤ)
  | big (a : Address)
  | app (name : String) (args : List (Term Address))

variable {Address : Type}

namespace Term

mutual

/-- The term with a variable bound -/
def bind (n : ℕ) (s : Term Address) : Term Address → Term Address
  | .var m => if m = n then s else .var m
  | .int v => .int v
  | .big a => .big a
  | .app name args => .app name (bindArgs n s args)

def bindArgs (n : ℕ) (s : Term Address) : List (Term Address) → List (Term Address)
  | [] => []
  | t :: ts => bind n s t :: bindArgs n s ts

end

mutual

/-- A number above those of the variables -/
def fresh : Term Address → ℕ
  | .var n => n + 1
  | .int _ => 0
  | .big _ => 0
  | .app _ args => freshArgs args

def freshArgs : List (Term Address) → ℕ
  | [] => 0
  | t :: ts => max (fresh t) (freshArgs ts)

end

def tx1 : Term Address := .app "tx1" []

end Term

/-- `wallet:utxo(HeapAddress, tx1, Value, Address)` -/
structure UtxoFact (Address : Type) where
  heapAddress : ℕ
  value : Term Address
  address : Address

/-- What becomes of a closure: an exception ends the query, or it is passed by, or it is taken for
a payment. -/
inductive Outcome (Address : Type)
  | aborts
  | fails
  | records (value : Term Address) (address : Address)

variable [DecidableEq Address]

/-- `'$new_utxo'` with the addresses of the cache, for a coin's value, a transaction type and
arguments that may be unbound -/
def newUtxo (validAddress : List (Address × ℕ)) (txType value args : Term Address) :
    Outcome Address :=
  match boundType with
  | none => .fails
  | some (value, args) =>
    match args with
    | .var y =>
      -- the arguments are bound to a structure with two new variables
      let n := max (Term.fresh value) (y + 1)
      match validAddress.head? with
      | none => .fails
      | some (a, _) => .records (value.bind y (.app "args" [.var n, .var (n + 1), .big a])) a
    | .app "args" [_, _, .var z] =>
      match validAddress.head? with
      | none => .fails
      | some (a, _) => .records (value.bind z (.big a)) a
    | .app "args" [_, _, .big a] =>
      if validAddress.any fun entry => entry.1 = a then .records value a else .fails
    | _ => .fails
where
  /-- The value and the arguments once the type is unified with `tx1` -/
  boundType : Option (Term Address × Term Address) :=
    match txType with
    | .var x => some (value.bind x Term.tx1, args.bind x Term.tx1)
    | .app "tx1" [] => some (value, args)
    | _ => none

/-- `'$new_utxo_closure'`, of the term behind `'$freeze':` -/
def newUtxoGoal (validAddress : List (Address × ℕ)) : Term Address → Outcome Address
  | .var _ => .aborts
  | .int _ => .fails
  | .big _ => .fails
  | .app _ args =>
    if args.length < 3 then .fails
    else
      match args with
      | _ :: _ :: _ :: _ :: txType :: txArgs :: _ :: .app _ (value :: _) :: _ =>
        newUtxo validAddress txType value txArgs
      -- arg/3 aborts where an argument is missing, or where the coin is no structure
      | _ => .aborts

def newUtxoClosure (validAddress : List (Address × ℕ)) : Term Address → Outcome Address
  | .var _ => .aborts
  | .app ":" [.app "$freeze" [], goal] => newUtxoGoal validAddress goal
  | .app ":" [.var m, goal] => newUtxoGoal validAddress (goal.bind m (.app "$freeze" []))
  | _ => .fails

end Source

section Wallet

/-- The frozen closures of the global state, all of them below the end of its heap -/
structure GlobalState (Address : Type) where
  closures : ℕ → Option (Term Address)
  heapSize : ℕ
  inside : ∀ a t, closures a = some t → a < heapSize

/-- `frozenk(From, K, HeapAddrs), frozen(HeapAddrs, Closures)` -/
def GlobalState.frozenk {Address : Type} (g : GlobalState Address) (start k : ℕ) :
    List (ℕ × Term Address) :=
  (inRange g.closures start g.heapSize).take k

/-- The facts of a wallet and of its cache that syncing reads and writes -/
structure SyncState (Address : Type) where
  utxo : List (UtxoFact Address)
  lastheap : ℕ
  numkeys : ℕ
  lastAddress : Option ℕ
  validAddress : List (Address × ℕ)

variable {Address PubKey Sig PrivKey HashValue : Type} [DecidableEq Address]
  (keys : Spending.Keys Address PubKey Sig PrivKey HashValue)

/-- The addresses that `'$cache_addresses'` leaves -/
def cachedAddresses (w : SyncState Address) : Option (List (Address × ℕ)) := do
  let i := w.lastAddress.getD 0
  guard (i ≤ w.numkeys)
  Spending.cacheAddressesN keys w.validAddress i (w.numkeys - i)

def cacheAddresses (w : SyncState Address) : Option (SyncState Address) :=
  (cachedAddresses keys w).map fun validAddress =>
    { w with validAddress, lastAddress := some w.numkeys }

/-- The scan of the closures of a batch: whether an exception ends it, and the facts -/
def scan (validAddress : List (Address × ℕ)) :
    List (ℕ × Term Address) → List (UtxoFact Address) → Bool × List (UtxoFact Address)
  | [], utxo => (false, utxo)
  | (heapAddress, closure) :: rest, utxo =>
    match newUtxoClosure validAddress closure with
    | .aborts => (true, utxo)
    | .fails => scan validAddress rest utxo
    | .records value address =>
      if utxo.any fun fact => fact.heapAddress = heapAddress then scan validAddress rest utxo
      else scan validAddress rest (utxo ++ [⟨heapAddress, value, address⟩])

/-- How a query ends -/
inductive Ending
  | succeeds
  | fails
  | aborts

variable (g : GlobalState Address)

/-- `sync(N)`. The position is moved before the closures are looked at. -/
def syncN (n : ℕ) (w : SyncState Address) : Ending × SyncState Address :=
  let heapAddrs := g.frozenk (w.lastheap + 1) n
  match heapAddrs.getLast? with
  | none => (.fails, w)
  | some last =>
    let (aborted, utxo) := scan w.validAddress heapAddrs w.utxo
    (if aborted then .aborts else .succeeds, { w with utxo, lastheap := last.1 })

def sync (w : SyncState Address) : SyncState Address :=
  match cacheAddresses keys w with
  | none => w
  | some w => (syncN g 100 w).2

/-- `sync_all0`, for a number of rounds -/
def syncAll0 : ℕ → SyncState Address → SyncState Address
  | 0, w => w
  | rounds + 1, w =>
    match syncN g 100 w with
    | (.succeeds, w) => syncAll0 rounds w
    | (_, w) => w

/-- `sync_all`. No more rounds can succeed than there are heap positions. -/
def syncAll (w : SyncState Address) : SyncState Address :=
  match cacheAddresses keys w with
  | none => w
  | some w => syncAll0 g (g.heapSize + 1) w

/-- `resync`: without a fact `retractall` fails, and nothing else is done. -/
def resync (w : SyncState Address) : SyncState Address :=
  if w.utxo.isEmpty then w else sync keys g { w with utxo := [], lastheap := 0 }

end Wallet

section Scan

variable {Address : Type} [DecidableEq Address] (validAddress : List (Address × ℕ))

def Outcome.ends : Outcome Address → Bool
  | .aborts => true
  | .fails => false
  | .records _ _ => false

/-- The closures of a query before the first one at which an exception ends it -/
def examined (l : List (ℕ × Term Address)) : List (ℕ × Term Address) :=
  l.takeWhile fun e => !(newUtxoClosure validAddress e.2).ends

/-- A closure is recorded in addition to some facts. -/
def RecordedAs (utxo : List (UtxoFact Address)) (e : ℕ × Term Address) (fact : UtxoFact Address) :
    Prop :=
  e.1 = fact.heapAddress ∧
    newUtxoClosure validAddress e.2 = .records fact.value fact.address ∧
    ∀ known ∈ utxo, known.heapAddress ≠ e.1

/-- The facts after several queries, each of which may end with an exception -/
def scans (queries : List (List (ℕ × Term Address))) (utxo : List (UtxoFact Address)) :
    List (UtxoFact Address) :=
  queries.foldl (fun utxo l => (scan validAddress l utxo).2) utxo

variable {validAddress} {l : List (ℕ × Term Address)} {utxo : List (UtxoFact Address)}

theorem scan_append_of_ended {xs : List (ℕ × Term Address)} (ys : List (ℕ × Term Address))
    (ended : (scan validAddress xs utxo).1 = true) :
    scan validAddress (xs ++ ys) utxo = scan validAddress xs utxo := by
  induction xs generalizing utxo with
  | nil => cases ended
  | cons e xs ih =>
    simp only [List.cons_append, scan] at ended ⊢
    cases found : newUtxoClosure validAddress e.2 with
    | aborts => rfl
    | fails =>
      simp only [found] at ended
      exact ih ended
    | records value address =>
      simp only [found] at ended
      dsimp only
      split
      · next known => exact ih (by rwa [if_pos known] at ended)
      · next unknown => exact ih (by rwa [if_neg unknown] at ended)

theorem scan_append_of_not_ended {xs : List (ℕ × Term Address)} (ys : List (ℕ × Term Address))
    (goes : (scan validAddress xs utxo).1 = false) :
    scan validAddress (xs ++ ys) utxo = scan validAddress ys (scan validAddress xs utxo).2 := by
  induction xs generalizing utxo with
  | nil => rfl
  | cons e xs ih =>
    simp only [List.cons_append, scan] at goes ⊢
    cases found : newUtxoClosure validAddress e.2 with
    | aborts =>
      simp only [found] at goes
      cases goes
    | fails =>
      simp only [found] at goes
      exact ih goes
    | records value address =>
      simp only [found] at goes
      dsimp only
      split
      · next known => exact ih (by rwa [if_pos known] at goes)
      · next unknown => exact ih (by rwa [if_neg unknown] at goes)

theorem recordedAs_append {e : ℕ × Term Address} {new fact : UtxoFact Address}
    (other : new.heapAddress ≠ e.1) :
    RecordedAs validAddress (utxo ++ [new]) e fact ↔ RecordedAs validAddress utxo e fact := by
  unfold RecordedAs
  simp only [List.mem_append, List.mem_singleton, or_imp, forall_and, forall_eq]
  tauto

theorem mem_scan (distinct : (l.map Prod.fst).Nodup) {fact : UtxoFact Address} :
    fact ∈ (scan validAddress l utxo).2 ↔
      fact ∈ utxo ∨ ∃ e ∈ examined validAddress l, RecordedAs validAddress utxo e fact := by
  induction l generalizing utxo with
  | nil => simp [scan, examined]
  | cons e l ih =>
    rw [List.map_cons, List.nodup_cons] at distinct
    obtain ⟨new, distinct⟩ := distinct
    have others : ∀ e' ∈ examined validAddress l, e'.1 ≠ e.1 := by
      intro e' member same
      apply new
      rw [← same]
      exact List.mem_map_of_mem ((List.takeWhile_prefix _).subset member)
    have outcome : examined validAddress (e :: l) =
        if (newUtxoClosure validAddress e.2).ends then [] else e :: examined validAddress l := by
      unfold examined
      rw [List.takeWhile_cons]
      cases (newUtxoClosure validAddress e.2).ends <;> rfl
    rw [outcome]
    simp only [scan]
    cases found : newUtxoClosure validAddress e.2 with
    | aborts => simp [Outcome.ends]
    | fails =>
      have passed : ¬ RecordedAs validAddress utxo e fact := by simp [RecordedAs, found]
      simp [Outcome.ends, ih distinct, passed]
    | records value address =>
      simp only [Outcome.ends, Bool.false_eq_true, if_false, List.mem_cons, exists_eq_or_imp]
      by_cases known : utxo.any (fun fact => fact.heapAddress = e.1) = true
      · have passed : ¬ RecordedAs validAddress utxo e fact := by
          rintro ⟨-, -, free⟩
          obtain ⟨old, member, same⟩ := List.any_eq_true.mp known
          exact free old member (of_decide_eq_true same)
        rw [if_pos known, ih distinct]
        simp [passed]
      · have free : ∀ old ∈ utxo, old.heapAddress ≠ e.1 := by
          intro old member same
          exact known (List.any_eq_true.mpr ⟨old, member, decide_eq_true same⟩)
        have here : RecordedAs validAddress utxo e fact ↔ fact = ⟨e.1, value, address⟩ := by
          unfold RecordedAs
          rw [found]
          constructor
          · rintro ⟨at_e, same, -⟩
            cases same
            cases fact
            cases at_e
            rfl
          · rintro rfl
            exact ⟨rfl, rfl, free⟩
        rw [if_neg known, ih distinct, here, List.mem_append, List.mem_singleton, or_assoc]
        apply or_congr_right
        apply or_congr_right
        constructor
        · rintro ⟨e', member, recorded⟩
          exact ⟨e', member, (recordedAs_append (others e' member).symm).mp recorded⟩
        · rintro ⟨e', member, recorded⟩
          exact ⟨e', member, (recordedAs_append (others e' member).symm).mpr recorded⟩

theorem scan_unique (unique : (utxo.map UtxoFact.heapAddress).Nodup) :
    ((scan validAddress l utxo).2.map UtxoFact.heapAddress).Nodup := by
  induction l generalizing utxo with
  | nil => exact unique
  | cons e l ih =>
    simp only [scan]
    cases newUtxoClosure validAddress e.2 with
    | aborts => exact unique
    | fails => exact ih unique
    | records value address =>
      dsimp only
      split
      · exact ih unique
      · next unknown =>
        apply ih
        rw [List.map_append, List.map_singleton, List.nodup_append]
        refine ⟨unique, List.nodup_singleton _, ?_⟩
        rintro a known b here rfl
        obtain ⟨old, member, same⟩ := List.mem_map.mp known
        rw [List.mem_singleton.mp here] at same
        exact unknown (List.any_eq_true.mpr ⟨old, member, decide_eq_true same⟩)

theorem mem_scans {queries : List (List (ℕ × Term Address))}
    (distinct : (queries.flatten.map Prod.fst).Nodup) {fact : UtxoFact Address} :
    fact ∈ scans validAddress queries utxo ↔ fact ∈ utxo ∨
      ∃ e ∈ queries.flatMap (examined validAddress), RecordedAs validAddress utxo e fact := by
  induction queries generalizing utxo with
  | nil => simp [scans]
  | cons l queries ih =>
    rw [List.flatten_cons, List.map_append, List.nodup_append] at distinct
    obtain ⟨here, later, apart⟩ := distinct
    have others : ∀ e ∈ queries.flatMap (examined validAddress),
        (RecordedAs validAddress (scan validAddress l utxo).2 e fact ↔
          RecordedAs validAddress utxo e fact) := by
      intro e member
      obtain ⟨l', among, inside⟩ := List.mem_flatMap.mp member
      have off : ∀ e' ∈ l, e'.1 ≠ e.1 := by
        intro e' member'
        have listed : e ∈ queries.flatten :=
          List.mem_flatten.mpr ⟨l', among, (List.takeWhile_prefix _).subset inside⟩
        exact apart _ (List.mem_map_of_mem member') _ (List.mem_map_of_mem listed)
      have free : (∀ known ∈ (scan validAddress l utxo).2, known.heapAddress ≠ e.1) ↔
          ∀ known ∈ utxo, known.heapAddress ≠ e.1 := by
        constructor
        · intro free known member
          exact free known ((mem_scan here).mpr (Or.inl member))
        · intro free known member
          rcases (mem_scan here).mp member with old | ⟨e', among', recorded⟩
          · exact free known old
          · rw [← recorded.1]
            exact off e' ((List.takeWhile_prefix _).subset among')
      unfold RecordedAs
      rw [free]
    show fact ∈ scans validAddress queries (scan validAddress l utxo).2 ↔ _
    rw [ih later, mem_scan here, or_assoc, List.flatMap_cons]
    apply or_congr_right
    constructor
    · rintro (⟨e, member, recorded⟩ | ⟨e, member, recorded⟩)
      · exact ⟨e, List.mem_append_left _ member, recorded⟩
      · exact ⟨e, List.mem_append_right _ member, (others e member).mp recorded⟩
    · rintro ⟨e, member, recorded⟩
      rcases List.mem_append.mp member with first | rest
      · exact Or.inl ⟨e, first, recorded⟩
      · exact Or.inr ⟨e, rest, (others e rest).mpr recorded⟩

end Scan

section Rounds

variable {Address : Type} (g : GlobalState Address)

/-- The closures above the position of a wallet -/
def above (w : SyncState Address) : List (ℕ × Term Address) :=
  inRange g.closures (w.lastheap + 1) g.heapSize

variable {g} {w : SyncState Address}

theorem above_length : (above g w).length ≤ g.heapSize := by
  unfold above inRange
  refine (List.length_filterMap_le _ _).trans ?_
  rw [List.length_range']
  omega

theorem above_after {w' : SyncState Address} {k : ℕ} {last : ℕ × Term Address}
    (found : ((above g w).take k).getLast? = some last) (position : w'.lastheap = last.1) :
    above g w' = (above g w).drop k := by
  unfold above
  rw [position]
  exact inRange_after_take found

variable [DecidableEq Address]

theorem syncN_cases (g : GlobalState Address) (w : SyncState Address) (k : ℕ) :
    (above g w).take k = [] ∧ syncN g k w = (.fails, w) ∨
      ∃ last, ((above g w).take k).getLast? = some last ∧
        syncN g k w =
          (if (scan w.validAddress ((above g w).take k) w.utxo).1 then .aborts else .succeeds,
            { w with
              utxo := (scan w.validAddress ((above g w).take k) w.utxo).2
              lastheap := last.1 }) := by
  have batch : g.frozenk (w.lastheap + 1) k = (above g w).take k := rfl
  cases found : ((above g w).take k).getLast? with
  | none =>
    refine Or.inl ⟨List.getLast?_eq_none_iff.mp found, ?_⟩
    unfold syncN
    rw [batch]
    dsimp only
    rw [found]
  | some last =>
    refine Or.inr ⟨last, rfl, ?_⟩
    unfold syncN
    rw [batch]
    dsimp only
    rw [found]

theorem syncN_utxo (g : GlobalState Address) (w : SyncState Address) (k : ℕ) :
    (syncN g k w).2.utxo = (scan w.validAddress ((above g w).take k) w.utxo).2 := by
  rcases syncN_cases g w k with ⟨empty, round⟩ | ⟨last, -, round⟩
  · rw [round, empty]
    rfl
  · rw [round]

theorem syncAll0_utxo {rounds : ℕ} (enough : (above g w).length < rounds) :
    (syncAll0 g rounds w).utxo = (scan w.validAddress (above g w) w.utxo).2 := by
  induction rounds generalizing w with
  | zero => omega
  | succ rounds ih =>
    have batches := List.take_append_drop 100 (above g w)
    unfold syncAll0
    rcases syncN_cases g w 100 with ⟨empty, round⟩ | ⟨last, found, round⟩
    · have none_ : above g w = [] := by
        rcases List.take_eq_nil_iff.mp empty with hundred | none_
        · omega
        · exact none_
      rw [round, none_]
      rfl
    · rw [round]
      by_cases ended : (scan w.validAddress ((above g w).take 100) w.utxo).1 = true
      · rw [if_pos ended]
        conv_rhs => rw [← batches, scan_append_of_ended _ ended]
      · have goes := eq_false_of_ne_true ended
        rw [if_neg ended]
        conv_rhs => rw [← batches, scan_append_of_not_ended _ goes]
        have rest : above g { w with
              utxo := (scan w.validAddress ((above g w).take 100) w.utxo).2
              lastheap := last.1 } = (above g w).drop 100 := above_after found rfl
        have nonempty : 0 < (above g w).length := by
          have listed : last ∈ (above g w).take 100 := List.mem_of_getLast? found
          exact List.length_pos_of_mem (List.mem_of_mem_take listed)
        have shorter : (above g { w with
              utxo := (scan w.validAddress ((above g w).take 100) w.utxo).2
              lastheap := last.1 }).length < rounds := by
          rw [rest, List.length_drop]
          omega
        show (syncAll0 g rounds _).utxo = _
        rw [ih shorter, rest]

end Rounds

section Runs

variable {Address PubKey Sig PrivKey HashValue : Type} [DecidableEq Address]
  (keys : Spending.Keys Address PubKey Sig PrivKey HashValue)

/-- What a wallet does: it makes a key, or it synchronises with the global state of the moment, by a
batch, by all batches, or by all batches after the position was reset. -/
inductive Op (Address : Type)
  | newkey
  | sync (g : GlobalState Address)
  | syncAll (g : GlobalState Address)
  | resync (g : GlobalState Address)

def step (w : SyncState Address) : Op Address → SyncState Address
  | .newkey => { w with numkeys := w.numkeys + 1 }
  | .sync g => sync keys g w
  | .syncAll g => syncAll keys g w
  | .resync g => syncAll keys g (resync keys g w)

/-- A wallet with some keys that was never synchronised -/
def unsynced (numkeys : ℕ) : SyncState Address where
  utxo := []
  lastheap := 0
  numkeys := numkeys
  lastAddress := none
  validAddress := []

def run (numkeys : ℕ) (ops : List (Op Address)) : SyncState Address :=
  ops.foldl (step keys) (unsynced numkeys)

/-- One of the wallet's keys has the address. -/
def Owned (numkeys : ℕ) (a : Address) : Prop :=
  ∃ i < numkeys, ∃ p, keys.pubkey i = some p ∧ keys.address p = a

/-- A frozen closure of transaction type `tx1`, with the value of its coin and its address -/
inductive IsPayment : Term Address → Term Address → Address → Prop
  | tx1 (name coin : String) (m n arity hash signature pubKey coinOut value : Term Address)
    (a : Address) (fields more : List (Term Address)) :
    IsPayment
      (.app ":" [.app "$freeze" [],
        .app name (m :: n :: arity :: hash :: Term.tx1 ::
          .app "args" [signature, pubKey, .big a] :: coinOut ::
          .app coin (value :: fields) :: more)])
      value a

/-- The closures that a step has to look at: all of them, up to the end of the batch -/
def inReach (w : SyncState Address) : Op Address → ℕ → Option (Term Address)
  | .newkey => fun _ => none
  | .sync g => fun a => if a ∈ ((above g w).drop 100).map Prod.fst then none else g.closures a
  | .syncAll g => g.closures
  | .resync g => g.closures

/-- The fact of a payment to the wallet -/
def Due (w : SyncState Address) (op : Op Address) (fact : UtxoFact Address) : Prop :=
  ∃ closure, inReach w op fact.heapAddress = some closure ∧
    IsPayment closure fact.value fact.address ∧ Owned keys w.numkeys fact.address

/-- The facts that a step starts with -/
def base (w : SyncState Address) : Op Address → List (UtxoFact Address)
  | .resync _ => []
  | _ => w.utxo

/-- After the step there is one fact for each payment, and there are the facts of before. -/
structure Exact (w : SyncState Address) (op : Op Address) : Prop where
  unique : ((step keys w op).utxo.map UtxoFact.heapAddress).Nodup
  facts : ∀ fact, fact ∈ (step keys w op).utxo ↔ fact ∈ base w op ∨ Due keys w op fact

/-- The closures that the queries of a step are given, if the addresses can be computed -/
def offered (w : SyncState Address) (op : Op Address) : List (List (ℕ × Term Address)) :=
  if (cachedAddresses keys w).isSome then
    match op with
    | .newkey => []
    | .sync g => [(above g w).take 100]
    | .syncAll g => [above g w]
    | .resync g =>
      -- resync is a query of its own, and fails where there is no fact
      if w.utxo.isEmpty then [above g w]
      else [(inRange g.closures 1 g.heapSize).take 100, (inRange g.closures 1 g.heapSize).drop 100]
  else []

/-- The closures that the queries of a step come to -/
def seen (w : SyncState Address) (op : Op Address) : List (ℕ × Term Address) :=
  (offered keys w op).flatMap (examined ((cachedAddresses keys w).getD []))

/-- Every payment that is not recorded yet lies above the position, before the first closure at
which an exception ends the query, and at an address without a fact; and what is taken for a payment
is one. -/
structure Covered (w : SyncState Address) (op : Op Address) : Prop where
  payments : ∀ fact, Due keys w op fact → fact ∉ base w op →
    fact.heapAddress ∈ (seen keys w op).map Prod.fst ∧
      ∀ known ∈ base w op, known.heapAddress ≠ fact.heapAddress
  others : ∀ e ∈ seen keys w op, (∀ known ∈ base w op, known.heapAddress ≠ e.1) → ∀ value a,
    newUtxoClosure ((cachedAddresses keys w).getD []) e.2 = .records value a →
      IsPayment e.2 value a

end Runs

section Steps

variable {Address PubKey Sig PrivKey HashValue : Type} [DecidableEq Address]
  {keys : Spending.Keys Address PubKey Sig PrivKey HashValue} {w : SyncState Address}

theorem syncAll_utxo (g : GlobalState Address) {validAddress : List (Address × ℕ)}
    (cached : cachedAddresses keys w = some validAddress) :
    (syncAll keys g w).utxo = (scan validAddress (above g w) w.utxo).2 := by
  have stored : cacheAddresses keys w =
      some { w with validAddress, lastAddress := some w.numkeys } := by
    rw [cacheAddresses, cached]
    rfl
  unfold syncAll
  rw [stored]
  exact syncAll0_utxo (Nat.lt_succ_of_le above_length)

theorem cacheAddresses_none (cached : cachedAddresses keys w = none) :
    cacheAddresses keys w = none := by
  rw [cacheAddresses, cached]
  rfl

theorem cachedAddresses_again {w' : SyncState Address} {validAddress : List (Address × ℕ)}
    (counted : w'.lastAddress = some w'.numkeys) (valid : w'.validAddress = validAddress) :
    cachedAddresses keys w' = some validAddress := by
  unfold cachedAddresses
  rw [counted, valid]
  simp [Spending.cacheAddressesN]

theorem sync_eq (g : GlobalState Address) {validAddress : List (Address × ℕ)}
    (cached : cachedAddresses keys w = some validAddress) :
    (sync keys g w).utxo = (scan validAddress ((above g w).take 100) w.utxo).2 ∧
      cachedAddresses keys (sync keys g w) = some validAddress ∧
      above g (sync keys g w) = (above g w).drop 100 := by
  have stored : cacheAddresses keys w =
      some { w with validAddress, lastAddress := some w.numkeys } := by
    rw [cacheAddresses, cached]
    rfl
  unfold sync
  rw [stored]
  dsimp only
  refine ⟨syncN_utxo g _ 100, ?_⟩
  rcases syncN_cases g { w with validAddress, lastAddress := some w.numkeys } 100 with
    ⟨empty, round⟩ | ⟨last, found, round⟩
  · rw [round]
    refine ⟨cachedAddresses_again rfl rfl, ?_⟩
    have none_ : above g w = [] := by
      rcases List.take_eq_nil_iff.mp empty with hundred | none_
      · omega
      · exact none_
    show above g w = _
    rw [none_]
    rfl
  · rw [round]
    exact ⟨cachedAddresses_again rfl rfl, above_after found rfl⟩

theorem step_utxo (op : Op Address) :
    (step keys w op).utxo =
      scans ((cachedAddresses keys w).getD []) (offered keys w op) (base w op) := by
  cases cached : cachedAddresses keys w with
  | none =>
    have missing := cacheAddresses_none cached
    unfold offered
    rw [cached, if_neg (by simp)]
    cases op with
    | newkey => rfl
    | sync g =>
      show (sync keys g w).utxo = w.utxo
      rw [sync, missing]
    | syncAll g =>
      show (syncAll keys g w).utxo = w.utxo
      rw [syncAll, missing]
    | resync g =>
      show (syncAll keys g (resync keys g w)).utxo = []
      unfold resync
      split
      · next empty =>
        rw [syncAll, missing]
        exact List.isEmpty_iff.mp empty
      · have missing' : cacheAddresses keys { w with utxo := [], lastheap := 0 } = none :=
          cacheAddresses_none cached
        rw [sync, missing']
        dsimp only
        rw [syncAll, missing']
  | some validAddress =>
    unfold offered
    rw [cached, if_pos (by rfl)]
    cases op with
    | newkey => rfl
    | sync g => exact (sync_eq g cached).1
    | syncAll g => exact syncAll_utxo g cached
    | resync g =>
      show (syncAll keys g (resync keys g w)).utxo = _
      dsimp only
      unfold resync
      split
      · next empty =>
        rw [syncAll_utxo g cached, List.isEmpty_iff.mp empty]
        rfl
      · have cached' : cachedAddresses keys { w with utxo := [], lastheap := 0 } =
            some validAddress := cached
        obtain ⟨facts, again, rest⟩ := sync_eq g cached'
        rw [syncAll_utxo g again, facts, rest]
        rfl

theorem offered_ascending (op : Op Address) :
    ((offered keys w op).flatten).Pairwise fun x y => x.1 < y.1 := by
  unfold offered
  split
  · cases op with
    | newkey => exact List.Pairwise.nil
    | sync g =>
      simp only [List.flatten_cons, List.flatten_nil, List.append_nil]
      exact inRange_pairwise.sublist (List.take_sublist _ _)
    | syncAll g =>
      simp only [List.flatten_cons, List.flatten_nil, List.append_nil]
      exact inRange_pairwise
    | resync g =>
      dsimp only
      split <;> simp only [List.flatten_cons, List.flatten_nil, List.append_nil,
        List.take_append_drop]
      · exact inRange_pairwise
      · exact inRange_pairwise
  · exact List.Pairwise.nil

theorem offered_distinct (op : Op Address) :
    ((offered keys w op).flatten.map Prod.fst).Nodup := by
  rw [List.Nodup, List.pairwise_map]
  exact (offered_ascending op).imp fun less => less.ne

theorem mem_offered {op : Op Address} {e : ℕ × Term Address}
    (member : e ∈ (offered keys w op).flatten) : inReach w op e.1 = some e.2 := by
  unfold offered at member
  split at member
  · cases op with
    | newkey => cases member
    | sync g =>
      simp only [List.flatten_cons, List.flatten_nil, List.append_nil] at member
      have sorted : (above g w).Pairwise fun x y => x.1 < y.1 := inRange_pairwise
      rw [← List.take_append_drop 100 (above g w), List.pairwise_append] at sorted
      obtain ⟨-, -, below⟩ := sorted
      have inBatch : e.1 ∉ ((above g w).drop 100).map Prod.fst := by
        intro late
        obtain ⟨e', member', same⟩ := List.mem_map.mp late
        exact absurd same (below e member e' member').ne'
      show (if _ then _ else _) = _
      rw [if_neg inBatch]
      exact (mem_inRange.mp (List.mem_of_mem_take member)).2.2
    | syncAll g =>
      simp only [List.flatten_cons, List.flatten_nil, List.append_nil] at member
      exact (mem_inRange.mp member).2.2
    | resync g =>
      dsimp only at member
      split at member <;> simp only [List.flatten_cons, List.flatten_nil, List.append_nil,
        List.take_append_drop] at member
      · exact (mem_inRange.mp member).2.2
      · exact (mem_inRange.mp member).2.2
  · cases member

theorem mem_seen {op : Op Address} {e : ℕ × Term Address} (member : e ∈ seen keys w op) :
    inReach w op e.1 = some e.2 ∧ (cachedAddresses keys w).isSome = true := by
  obtain ⟨l, among, inside⟩ := List.mem_flatMap.mp member
  have listed : e ∈ (offered keys w op).flatten :=
    List.mem_flatten.mpr ⟨l, among, (List.takeWhile_prefix _).subset inside⟩
  refine ⟨mem_offered listed, ?_⟩
  by_contra missing
  unfold offered at among
  rw [if_neg missing] at among
  cases among

end Steps

section Payments

variable {Address PubKey Sig PrivKey HashValue : Type} [DecidableEq Address]
  {keys : Spending.Keys Address PubKey Sig PrivKey HashValue} {w : SyncState Address}

theorem newUtxoClosure_payment (validAddress : List (Address × ℕ)) {closure value : Term Address}
    {a : Address} (payment : IsPayment closure value a) :
    newUtxoClosure validAddress closure =
      if validAddress.any fun entry => entry.1 = a then .records value a else .fails := by
  cases payment
  simp [newUtxoClosure, newUtxoGoal, newUtxo, newUtxo.boundType, Term.tx1]

theorem mem_cacheAddress {a address : Address} {i : ℕ} {validAddress : List (Address × ℕ)} :
    (∃ j, (a, j) ∈ (if validAddress.any (fun entry => entry.1 = address) then validAddress
      else validAddress ++ [(address, i)])) ↔ (∃ j, (a, j) ∈ validAddress) ∨ address = a := by
  by_cases known : validAddress.any (fun entry => entry.1 = address) = true
  · rw [if_pos known]
    obtain ⟨⟨b, j⟩, member, same⟩ := List.any_eq_true.mp known
    constructor
    · exact Or.inl
    · rintro (found | rfl)
      · exact found
      · exact ⟨j, (of_decide_eq_true same : b = address) ▸ member⟩
  · rw [if_neg known]
    simp only [List.mem_append, List.mem_singleton, Prod.mk.injEq, exists_or]
    apply or_congr_right
    constructor
    · rintro ⟨j, same, -⟩
      exact same.symm
    · rintro rfl
      exact ⟨i, rfl, rfl⟩

theorem cacheAddressesN_mem {a : Address} {count i : ℕ} {validAddress cached : List (Address × ℕ)}
    (done : Spending.cacheAddressesN keys validAddress i count = some cached) :
    (∃ j, (a, j) ∈ cached) ↔ (∃ j, (a, j) ∈ validAddress) ∨
      ∃ j, i ≤ j ∧ j < i + count ∧ ∃ p, keys.pubkey j = some p ∧ keys.address p = a := by
  induction count generalizing i validAddress with
  | zero =>
    cases done
    constructor
    · exact Or.inl
    · rintro (known | ⟨j, low, high, -⟩)
      · exact known
      · omega
  | succ count ih =>
    unfold Spending.cacheAddressesN at done
    obtain ⟨pubKey, found, rest⟩ := Option.bind_eq_some_iff.mp done
    rw [ih rest, mem_cacheAddress, or_assoc]
    apply or_congr_right
    constructor
    · rintro (rfl | ⟨j, low, high, key⟩)
      · exact ⟨i, le_rfl, by omega, pubKey, found, rfl⟩
      · exact ⟨j, by omega, by omega, key⟩
    · rintro ⟨j, low, high, p, key, same⟩
      rcases Nat.eq_or_lt_of_le low with rfl | later
      · left
        rw [found] at key
        cases key
        exact same
      · exact Or.inr ⟨j, later, by omega, p, key, same⟩

/-- What every run keeps: one fact at an address, and in the cache the addresses of the keys that
were counted. -/
structure Cached (keys : Spending.Keys Address PubKey Sig PrivKey HashValue)
    (w : SyncState Address) : Prop where
  unique : (w.utxo.map UtxoFact.heapAddress).Nodup
  counted : w.lastAddress.getD 0 ≤ w.numkeys
  known : ∀ a, (∃ j, (a, j) ∈ w.validAddress) ↔ Owned keys (w.lastAddress.getD 0) a

theorem Cached.owned (cached : Cached keys w) {validAddress : List (Address × ℕ)}
    (done : cachedAddresses keys w = some validAddress) (a : Address) :
    (∃ j, (a, j) ∈ validAddress) ↔ Owned keys w.numkeys a := by
  unfold cachedAddresses at done
  obtain ⟨-, -, listed⟩ := Option.bind_eq_some_iff.mp done
  have counted := cached.counted
  rw [cacheAddressesN_mem listed, cached.known a]
  unfold Owned
  constructor
  · rintro (⟨j, low, key⟩ | ⟨j, -, high, key⟩)
    · exact ⟨j, by omega, key⟩
    · exact ⟨j, by omega, key⟩
  · rintro ⟨j, less, key⟩
    by_cases old : j < w.lastAddress.getD 0
    · exact Or.inl ⟨j, old, key⟩
    · exact Or.inr ⟨j, by omega, by omega, key⟩

theorem Cached.records_iff (cached : Cached keys w) {validAddress : List (Address × ℕ)}
    (done : cachedAddresses keys w = some validAddress) {closure value : Term Address} {a : Address}
    (payment : IsPayment closure value a) :
    newUtxoClosure validAddress closure = .records value a ↔ Owned keys w.numkeys a := by
  have known : (validAddress.any fun entry => entry.1 = a) = true ↔ ∃ j, (a, j) ∈ validAddress := by
    rw [List.any_eq_true]
    constructor
    · rintro ⟨⟨b, j⟩, member, same⟩
      exact ⟨j, (of_decide_eq_true same : b = a) ▸ member⟩
    · rintro ⟨j, member⟩
      exact ⟨(a, j), member, decide_eq_true rfl⟩
  rw [newUtxoClosure_payment validAddress payment, ← cached.owned done a, ← known]
  split
  · next here => exact iff_of_true rfl here
  · next missing => exact iff_of_false (fun same => nomatch same) missing

end Payments

section Invariant

variable {Address PubKey Sig PrivKey HashValue : Type}
  {keys : Spending.Keys Address PubKey Sig PrivKey HashValue} {w : SyncState Address}

theorem cached_unsynced (numkeys : ℕ) : Cached keys (unsynced numkeys) where
  unique := List.nodup_nil
  counted := Nat.zero_le _
  known a := by simp [unsynced, Owned]

theorem Cached.newkey (cached : Cached keys w) :
    Cached keys { w with numkeys := w.numkeys + 1 } where
  unique := cached.unique
  counted := cached.counted.trans (Nat.le_succ _)
  known := cached.known

variable [DecidableEq Address]

theorem Cached.cacheAddresses (cached : Cached keys w) {w' : SyncState Address}
    (done : cacheAddresses keys w = some w') : Cached keys w' := by
  obtain ⟨validAddress, listed, rfl⟩ := Option.map_eq_some_iff.mp done
  exact ⟨cached.unique, le_rfl, cached.owned listed⟩

theorem Cached.syncN (cached : Cached keys w) (g : GlobalState Address) (k : ℕ) :
    Cached keys (syncN g k w).2 := by
  rcases syncN_cases g w k with ⟨-, round⟩ | ⟨last, -, round⟩
  · rw [round]
    exact cached
  · rw [round]
    exact ⟨scan_unique cached.unique, cached.counted, cached.known⟩

theorem Cached.syncAll0 (cached : Cached keys w) (g : GlobalState Address) (rounds : ℕ) :
    Cached keys (syncAll0 g rounds w) := by
  induction rounds generalizing w with
  | zero => exact cached
  | succ rounds ih =>
    have one := cached.syncN g 100
    unfold Syncing.syncAll0
    split
    · next round =>
      rw [round] at one
      exact ih one
    · next round =>
      rw [round] at one
      exact one

theorem Cached.sync (cached : Cached keys w) (g : GlobalState Address) :
    Cached keys (sync keys g w) := by
  unfold Syncing.sync
  split
  · exact cached
  · next done => exact (cached.cacheAddresses done).syncN g 100

theorem Cached.syncAll (cached : Cached keys w) (g : GlobalState Address) :
    Cached keys (syncAll keys g w) := by
  unfold Syncing.syncAll
  split
  · exact cached
  · next done => exact (cached.cacheAddresses done).syncAll0 g _

theorem Cached.resync (cached : Cached keys w) (g : GlobalState Address) :
    Cached keys (resync keys g w) := by
  unfold Syncing.resync
  split
  · exact cached
  · have reset : Cached keys { w with utxo := [], lastheap := 0 } :=
      ⟨List.nodup_nil, cached.counted, cached.known⟩
    exact reset.sync g

theorem Cached.step (cached : Cached keys w) (op : Op Address) : Cached keys (step keys w op) := by
  cases op with
  | newkey => exact cached.newkey
  | sync g => exact cached.sync g
  | syncAll g => exact cached.syncAll g
  | resync g => exact (cached.resync g).syncAll g

end Invariant

section Result

variable {Address PubKey Sig PrivKey HashValue : Type} [DecidableEq Address]
  {keys : Spending.Keys Address PubKey Sig PrivKey HashValue} {w : SyncState Address}

theorem mem_step {op : Op Address} {fact : UtxoFact Address} :
    fact ∈ (step keys w op).utxo ↔ fact ∈ base w op ∨ ∃ e ∈ seen keys w op,
      RecordedAs ((cachedAddresses keys w).getD []) (base w op) e fact := by
  rw [step_utxo]
  exact mem_scans (offered_distinct op)

theorem step_unique (cached : Cached keys w) (op : Op Address) :
    ((step keys w op).utxo.map UtxoFact.heapAddress).Nodup := (cached.step op).unique

theorem due_of_recordedAs (cached : Cached keys w) {op : Op Address} {e : ℕ × Term Address}
    {fact : UtxoFact Address} (member : e ∈ seen keys w op)
    (payment : IsPayment e.2 fact.value fact.address)
    (recorded : RecordedAs ((cachedAddresses keys w).getD []) (base w op) e fact) :
    Due keys w op fact := by
  obtain ⟨found, done⟩ := mem_seen member
  obtain ⟨validAddress, listed⟩ := Option.isSome_iff_exists.mp done
  obtain ⟨at_e, outcome, -⟩ := recorded
  rw [listed] at outcome
  exact ⟨e.2, at_e ▸ found, payment, (cached.records_iff listed payment).mp outcome⟩

theorem exact_iff (cached : Cached keys w) (op : Op Address) :
    Exact keys w op ↔ Covered keys w op := by
  constructor
  · intro exact_
    constructor
    · intro fact due new
      rcases mem_step.mp ((exact_.facts fact).mpr (Or.inr due)) with old | ⟨e, member, recorded⟩
      · exact absurd old new
      · obtain ⟨at_e, -, free⟩ := recorded
        rw [← at_e]
        exact ⟨List.mem_map_of_mem member, free⟩
    · intro e member free value a outcome
      have after : ⟨e.1, value, a⟩ ∈ (step keys w op).utxo :=
        mem_step.mpr (Or.inr ⟨e, member, rfl, outcome, free⟩)
      rcases (exact_.facts _).mp after with old | ⟨closure, found, payment, -⟩
      · exact absurd rfl (free _ old)
      · have same : inReach w op e.1 = some e.2 := (mem_seen member).1
        cases found.symm.trans same
        exact payment
  · intro covered
    refine ⟨step_unique cached op, ?_⟩
    intro fact
    rw [mem_step]
    constructor
    · rintro (old | ⟨e, member, recorded⟩)
      · exact Or.inl old
      · have payment := covered.others e member recorded.2.2 _ _ recorded.2.1
        exact Or.inr (due_of_recordedAs cached member payment recorded)
    · rintro (old | due)
      · exact Or.inl old
      · by_cases known : fact ∈ base w op
        · exact Or.inl known
        · obtain ⟨listed, free⟩ := covered.payments fact due known
          obtain ⟨e, member, at_e⟩ := List.mem_map.mp listed
          obtain ⟨found, done⟩ := mem_seen member
          obtain ⟨validAddress, cachedAs⟩ := Option.isSome_iff_exists.mp done
          obtain ⟨closure, here, payment, owned⟩ := due
          rw [at_e] at found
          cases found.symm.trans here
          refine Or.inr ⟨e, member, at_e, ?_, ?_⟩
          · rw [cachedAs]
            exact (cached.records_iff cachedAs payment).mpr owned
          · rw [at_e]
            exact free

/-- A property of each step of a run -/
def EveryStep (keys : Spending.Keys Address PubKey Sig PrivKey HashValue)
    (P : SyncState Address → Op Address → Prop) : SyncState Address → List (Op Address) → Prop
  | _, [] => True
  | w, op :: ops => P w op ∧ EveryStep keys P (step keys w op) ops

theorem everyStep_iff (cached : Cached keys w) (ops : List (Op Address)) :
    EveryStep keys (Exact keys) w ops ↔ EveryStep keys (Covered keys) w ops := by
  induction ops generalizing w with
  | nil => exact Iff.rfl
  | cons op ops ih => exact and_congr (exact_iff cached op) (ih (cached.step op))

/-- In a run of a wallet every step records exactly the payments, where they are covered. -/
theorem wallet_syncs_iff (keys : Spending.Keys Address PubKey Sig PrivKey HashValue) (numkeys : ℕ)
    (ops : List (Op Address)) :
    EveryStep keys (Exact keys) (unsynced numkeys) ops ↔
      EveryStep keys (Covered keys) (unsynced numkeys) ops :=
  everyStep_iff (cached_unsynced numkeys) ops

end Result

section Samples

/-- A closure of two variables, as a clause with `freeze(X, foo(X, Y))` leaves it -/
def shortClosure : Term ℕ :=
  .app ":" [.app "$freeze" [],
    .app "id" [.app "user" [], .app "p" [], .int 1, .var 0, .var 1]]

/-- The closure of `tx(Coin, Hash, tx1, args(_,_,0), _)` with a coin of the value 10 -/
def payment : Term ℕ :=
  .app ":" [.app "$freeze" [],
    .app "id" [.app "user" [], .app "tx" [], .int 5, .var 0, Term.tx1,
      .app "args" [.var 1, .var 2, .big 0], .var 3, .app "$coin" [.int 10, .var 4]]]

/-- A short closure below a payment -/
def twoClosures : GlobalState ℕ where
  closures a := if a = 1 then some shortClosure else if a = 2 then some payment else none
  heapSize := 3
  inside := by
    intro a t found
    by_contra behind
    rw [if_neg (by omega), if_neg (by omega)] at found
    cases found

/-- The exception at the short closure ends the scan before the payment. -/
theorem payment_missed : ¬ ∀ (numkeys : ℕ) (ops : List (Op ℕ)),
    EveryStep Spending.plainKeys (Exact Spending.plainKeys) (unsynced numkeys) ops := by
  intro always
  have exact_ := (always 1 [.syncAll twoClosures]).1
  have due : Due Spending.plainKeys (unsynced 1) (.syncAll twoClosures) ⟨2, .int 10, 0⟩ :=
    ⟨payment, rfl, .tx1 _ _ _ _ _ _ _ _ _ _ _ _ _, 0, Nat.one_pos, 0, rfl, rfl⟩
  have recorded := (exact_.facts _).mpr (Or.inr due)
  have nothing : (step Spending.plainKeys (unsynced 1) (.syncAll twoClosures)).utxo = [] := by
    rw [step_utxo]
    rfl
  rw [nothing] at recorded
  cases recorded

end Samples

end Epilog.Wallet.Syncing
