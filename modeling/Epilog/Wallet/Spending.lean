/- Module: Epilog/Wallet/Spending
   source: src/src/wallet/wallet_interpreter.cpp (newkey, '$cache_addresses', spend_many,
     '$choose', '$open_utxos'), src/src/interp/arithmetics.cpp (plus_2, minus_2),
     src/src/interp/builtins.cpp (sort_2)
   digest: Selecting unspent outputs, and the transaction that spends them. -/

import Epilog.Common.Heap
import Mathlib.Data.Int.Order.Basic
import Mathlib.Data.List.Sort
import Mathlib.Algebra.Order.BigOperators.Group.List
import Mathlib.Tactic.Linarith

set_option autoImplicit false

namespace Epilog.Wallet.Spending

section Integers

/-- `int_cell`: 61 bits in two's complement -/
structure IntCell where
  value : ℤ
  low : -2 ^ 60 ≤ value
  high : value < 2 ^ 60
  deriving DecidableEq

namespace IntCell

/-- `int_cell(val)` keeps the lower 61 bits. -/
def wrap (z : ℤ) : IntCell where
  value := z.bmod (2 ^ 61)
  low := le_trans (by norm_num) (Int.le_bmod (x := z) (m := 2 ^ 61) (by norm_num))
  high := lt_of_lt_of_le (Int.bmod_lt (x := z) (m := 2 ^ 61) (by norm_num)) (by norm_num)

/-- `plus_2` -/
def plus (a b : IntCell) : IntCell := wrap (a.value + b.value)

/-- `minus_2` -/
def minus (a b : IntCell) : IntCell := wrap (a.value - b.value)

def zero : IntCell := ⟨0, by norm_num, by norm_num⟩

theorem wrap_value {z : ℤ} (low : -2 ^ 60 ≤ z) (high : z < 2 ^ 60) : (wrap z).value = z :=
  Int.bmod_eq_of_le (le_trans (by norm_num) low) (lt_of_lt_of_le high (by norm_num))

end IntCell

end Integers

section Source

/-- `utxo(Value, HeapAddress)` -/
structure Utxo where
  value : IntCell
  heapAddress : IntCell
  deriving DecidableEq

/-- `standard_order` of two such terms is negative. -/
def Utxo.before (u v : Utxo) : Bool :=
  u.value.value < v.value.value ∨
    u.value.value = v.value.value ∧ u.heapAddress.value < v.heapAddress.value

/-- `sort/2`: a stable sort. Terms in different cells are not taken for duplicates. -/
def sort (utxos : List Utxo) : List Utxo := utxos.insertionSort fun u v => v.before u = false

def sum : List IntCell → IntCell
  | [] => .zero
  | x :: xs => (sum xs).plus x

def sumUtxo : List Utxo → IntCell → IntCell
  | [], sum => sum
  | utxo :: rest, sum => (sumUtxo rest sum).plus utxo.value

def choose : List Utxo → IntCell → Option (List Utxo)
  | utxos, funds =>
    if funds = .zero then some []
    else
      match utxos with
      | [] => none
      | utxo :: rest =>
        if utxo.value.value ≤ funds.value then
          (choose rest (funds.minus utxo.value)).map (utxo :: ·)
        else if rest = [] then some [utxo]
        else choose rest funds

end Source
section Transaction

variable (Address PubKey Sig : Type)

/-- A goal of the script. The variables of terms are numbered as they come up, and the types of
transactions are `tx1`. -/
inductive Goal
  /-- `defrost(HeapAddress, Closure, [Hash, args(Signature, PubKey, Address)])` -/
  | defrost (heapAddress : IntCell) (closure hash signature : ℕ) (pubKey : PubKey)
      (address : Address)
  /-- `arg(n, Closure, Coin)` -/
  | arg (n : ℕ) (closure coin : ℕ)
  | cjoin (coins : List ℕ) (sumCoin : ℕ)
  | csplit (coin : ℕ) (amounts : List IntCell) (coins : List ℕ)
  /-- `tx(Coin, V, tx1, args(V1, V2, Address), V3)` -/
  | tx (coin v v1 v2 : ℕ) (address : Address) (v3 : ℕ)

/-- A conjunction -/
inductive Commas (α : Type)
  | last (x : α)
  | comma (x : α) (rest : Commas α)

def listToCommas {α : Type} : List α → Option (Commas α)
  | [] => none
  | [x] => some (.last x)
  | x :: y :: xs => (listToCommas (y :: xs)).map (.comma x)

def Commas.toList {α : Type} : Commas α → List α
  | .last x => [x]
  | .comma x rest => x :: rest.toList

/-- `p(Hash, SignVars, FeeCoin) :- Command` -/
structure Script where
  hash : ℕ
  signVars : List ℕ
  feeCoin : ℕ
  command : Commas (Goal Address PubKey)

/-- A goal of the final transaction -/
inductive TxGoal
  | assign (signVar : ℕ) (signature : Sig)
  | script (script : Script Address PubKey)

/-- `sign(tx1, SignVar, Address)` -/
structure Sign where
  signVar : ℕ
  address : Address

/-- `wallet:utxo(HeapAddress, TxType, Value, Data)`; only the type `tx1` has a clause. -/
structure UtxoFact where
  heapAddress : IntCell
  isTx1 : Bool
  value : IntCell
  data : Address

/-- The facts of a wallet and of its cache, in the order of their clauses -/
structure WalletState where
  utxo : List (UtxoFact Address)
  numkeys : ℕ
  lastAddress : Option ℕ
  validAddress : List (Address × ℕ)

variable (PrivKey HashValue : Type)

/-- The keys of a wallet and the predicates of `ec` -/
structure Keys where
  pubkey : ℕ → Option PubKey
  privkey : ℕ → Option PrivKey
  address : PubKey → Address
  hash : Script Address PubKey → HashValue
  sign : PrivKey → HashValue → Sig

end Transaction

section Spend

variable {Address PubKey Sig PrivKey HashValue : Type} [DecidableEq Address]
  (keys : Keys Address PubKey Sig PrivKey HashValue)

def newkey (w : WalletState Address) : Option (Address × WalletState Address) := do
  let publicKey ← keys.pubkey w.numkeys
  return (keys.address publicKey, { w with numkeys := w.numkeys + 1 })

/-- `'$cache_addresses_n'` for `count` keys from `i` on -/
def cacheAddressesN (validAddress : List (Address × ℕ)) (i : ℕ) :
    (count : ℕ) → Option (List (Address × ℕ))
  | 0 => some validAddress
  | count + 1 => do
    let pubKey ← keys.pubkey i
    let address := keys.address pubKey
    let known := validAddress.any fun entry => entry.1 = address
    cacheAddressesN (if known then validAddress else validAddress ++ [(address, i)]) (i + 1) count

/-- `'$cache_addresses'`; from beyond the number of keys the counting has no end. -/
def cacheAddresses (w : WalletState Address) : Option (WalletState Address) := do
  let i := w.lastAddress.getD 0
  guard (i ≤ w.numkeys)
  let validAddress ← cacheAddressesN keys w.validAddress i (w.numkeys - i)
  return { w with validAddress, lastAddress := some w.numkeys }

def openUtxoTx (w : WalletState Address) (heapAddress : IntCell) (address : Address) (hash next : ℕ) :
    Option (ℕ × Sign Address × List (Goal Address PubKey)) := do
  let count ← w.validAddress.lookup address
  let pubKey ← keys.pubkey count
  let coin := next
  let signature := next + 1
  let closure := next + 2
  return (coin, ⟨signature, address⟩,
    [.defrost heapAddress closure hash signature pubKey address, .arg 7 closure coin])

def openUtxo (w : WalletState Address) (heapAddress : IntCell) (hash next : ℕ) :
    Option (ℕ × Sign Address × List (Goal Address PubKey)) :=
  w.utxo.findSome? fun fact =>
    if fact.heapAddress = heapAddress ∧ fact.isTx1 then
      openUtxoTx keys w heapAddress fact.data hash next
    else none

/-- `'$open_utxos'`, with the next variable -/
def openUtxos (w : WalletState Address) (hash : ℕ) : List Utxo → ℕ →
    Option (List ℕ × List (Sign Address) × List (Goal Address PubKey) × ℕ)
  | [], next => some ([], [], [], next)
  | utxo :: utxos, next => do
    let (coin, sign, commands0) ← openUtxo keys w utxo.heapAddress hash next
    let (coins, signs, commands1, next) ← openUtxos w hash utxos (next + 3)
    return (coin :: coins, sign :: signs, commands0 ++ commands1, next)

/-- `findall(tx(_, _, tx1, args(_, _, Address), _), member(Address, Addresses), Txs)` -/
def sendTxs : List Address → ℕ → List (Goal Address PubKey)
  | [], _ => []
  | address :: addresses, next =>
    .tx next (next + 1) (next + 2) (next + 3) address (next + 4) :: sendTxs addresses (next + 5)

def getCoins : List (Goal Address PubKey) → Option (List ℕ)
  | [] => some []
  | .tx coin _ _ _ _ _ :: txs => (getCoins txs).map (coin :: ·)
  | _ :: _ => none

def signatures (w : WalletState Address) (hashValue : HashValue) :
    List (Sign Address) → Option (List (TxGoal Address PubKey Sig))
  | [] => some []
  | s :: signs => do
    let count ← w.validAddress.lookup s.address
    let privKey ← keys.privkey count
    let commands ← signatures w hashValue signs
    return .assign s.signVar (keys.sign privKey hashValue) :: commands

/-- The coin of a sole output as it is, or a join of the coins -/
def joinCoins : List ℕ → List (Goal Address PubKey) → ℕ × List (Goal Address PubKey)
  | [sumCoin], commands => (sumCoin, commands)
  | coins, commands => (1, commands ++ [.cjoin coins 1])

/-- The split and the transactions that receive the coins, with a new key for the change -/
def splitCoin (w : WalletState Address) (commands1 : List (Goal Address PubKey)) (sumCoin : ℕ)
    (fee rest : IntCell) (amounts : List IntCell) (sendCoins : List ℕ)
    (txs : List (Goal Address PubKey)) (next : ℕ) :
    Option (List (Goal Address PubKey) × WalletState Address) :=
  let feeCoin := 2
  let restCoin := 3
  if 0 < rest.value then do
    let (changeAddr, w) ← newkey keys w
    return (commands1 ++
      [.csplit sumCoin (fee :: rest :: amounts) (feeCoin :: restCoin :: sendCoins),
        .tx restCoin next (next + 1) (next + 2) changeAddr (next + 3)] ++ txs, w)
  else return (commands1 ++ [.csplit sumCoin (fee :: amounts) (feeCoin :: sendCoins)] ++ txs, w)

/-- `spend_many`: the final transaction and the consumed outputs, or failure. The variables 0 to 3
are `Hash`, `SumCoin`, `FeeCoin` and `RestCoin`. -/
def spendMany (w : WalletState Address) (addresses : List Address) (amounts : List IntCell)
    (fee : IntCell) :
    Option (Commas (TxGoal Address PubKey Sig) × List IntCell × WalletState Address) := do
  let w ← cacheAddresses keys w
  let utxos := w.utxo.map fun fact => (⟨fact.value, fact.heapAddress⟩ : Utxo)
  let sortedUtxos := sort utxos
  let amountToSpend := sum amounts
  let totalAmount := amountToSpend.plus fee
  let chosenUtxos ← choose sortedUtxos totalAmount
  let chosenSum := sumUtxo chosenUtxos .zero
  let rest := chosenSum.minus totalAmount
  let (coins, signs, commands, next) ← openUtxos keys w 0 chosenUtxos 4
  let (sumCoin, commands1) := joinCoins coins commands
  let txs : List (Goal Address PubKey) := sendTxs addresses (next + 4)
  let sendCoins ← getCoins txs
  let (commands2, w) ← splitCoin keys w commands1 sumCoin fee rest amounts sendCoins txs next
  let command ← listToCommas commands2
  let script : Script Address PubKey :=
    { hash := 0, signVars := signs.map Sign.signVar, feeCoin := 2, command }
  let signAssigns ← signatures keys w (keys.hash script) signs
  let finalTx ← listToCommas (signAssigns ++ [TxGoal.script script])
  return (finalTx, chosenUtxos.map Utxo.heapAddress, w)

end Spend

section Selection

def worth (utxos : List Utxo) : ℤ := (utxos.map fun utxo => utxo.value.value).sum

/-- No output is before one that stands before it. -/
def Ascending (utxos : List Utxo) : Prop :=
  utxos.Pairwise fun u v => u.value.value ≤ v.value.value

variable {utxos chosen : List Utxo} {funds : IntCell}

@[simp] theorem worth_nil : worth [] = 0 := rfl

@[simp] theorem worth_cons (u : Utxo) (utxos : List Utxo) :
    worth (u :: utxos) = u.value.value + worth utxos := List.sum_cons

theorem IntCell.ext {a b : IntCell} (same : a.value = b.value) : a = b := by
  cases a
  cases b
  cases same
  rfl

theorem eq_zero_iff {a : IntCell} : a = .zero ↔ a.value = 0 :=
  ⟨fun same => same ▸ rfl, fun same => IntCell.ext same⟩

theorem sort_perm (utxos : List Utxo) : (sort utxos).Perm utxos := List.perm_insertionSort _ _

theorem sort_ascending (utxos : List Utxo) : Ascending (sort utxos) := by
  have trans : IsTrans Utxo fun u v => v.before u = false := ⟨fun u v w first second => by
    simp only [Utxo.before, decide_eq_false_iff_not] at *
    omega⟩
  have total : Std.Total fun u v : Utxo => v.before u = false := ⟨fun u v => by
    simp only [Utxo.before, decide_eq_false_iff_not]
    omega⟩
  refine (List.pairwise_insertionSort _ utxos).imp fun {u v} ordered => ?_
  simp only [Utxo.before, decide_eq_false_iff_not] at ordered
  omega

theorem worth_perm {utxos' : List Utxo} (perm : utxos.Perm utxos') : worth utxos = worth utxos' :=
  (perm.map _).sum_eq

theorem worth_nonneg (positive : ∀ u ∈ utxos, 0 < u.value.value) : 0 ≤ worth utxos := by
  refine List.sum_nonneg fun x inside => ?_
  obtain ⟨u, member, rfl⟩ := List.mem_map.1 inside
  exact (positive u member).le

theorem minus_value {value : IntCell} (positive : 0 < value.value)
    (le : value.value ≤ funds.value) :
    (funds.minus value).value = funds.value - value.value := by
  refine IntCell.wrap_value ?_ ?_
  · have := funds.high
    linarith
  · have := funds.high
    linarith

theorem choose_cons (u : Utxo) (utxos : List Utxo) (funds : IntCell) :
    choose (u :: utxos) funds =
      if funds = .zero then some []
      else if u.value.value ≤ funds.value then
        (choose utxos (funds.minus u.value)).map (u :: ·)
      else if utxos = [] then some [u]
      else choose utxos funds := by
  rw [choose]

theorem choose_sublist (found : choose utxos funds = some chosen) : chosen.Sublist utxos := by
  induction utxos generalizing funds chosen with
  | nil =>
    rw [choose] at found
    split_ifs at found
    cases found
    exact List.Sublist.refl _
  | cons u utxos ih =>
    rw [choose_cons] at found
    split_ifs at found with done affordable last
    · cases found
      exact List.nil_sublist _
    · obtain ⟨more, later, rfl⟩ := Option.map_eq_some_iff.1 found
      exact (ih later).cons_cons u
    · cases found
      rw [last]
    · exact (ih found).cons u

theorem worth_choose_lt (positive : ∀ u ∈ utxos, 0 < u.value.value)
    (found : choose utxos funds = some chosen) : worth chosen < max funds.value 0 + 2 ^ 60 := by
  induction utxos generalizing funds chosen with
  | nil =>
    rw [choose] at found
    split_ifs at found
    cases found
    rw [worth_nil]
    positivity
  | cons u utxos ih =>
    have pos := positive u List.mem_cons_self
    have rest : ∀ v ∈ utxos, 0 < v.value.value := fun v inside =>
      positive v (List.mem_cons_of_mem u inside)
    rw [choose_cons] at found
    split_ifs at found with done affordable last
    · cases found
      rw [worth_nil]
      positivity
    · obtain ⟨more, later, rfl⟩ := Option.map_eq_some_iff.1 found
      have less := ih rest later
      rw [minus_value pos affordable, max_eq_left (by linarith)] at less
      rw [worth_cons, max_eq_left (by linarith)]
      linarith
    · cases found
      have high := u.value.high
      have nonneg := le_max_right funds.value 0
      rw [worth_cons, worth_nil]
      linarith
    · exact ih rest found

theorem le_worth_choose (ascending : Ascending utxos) (positive : ∀ u ∈ utxos, 0 < u.value.value)
    (found : choose utxos funds = some chosen) : funds.value ≤ worth chosen := by
  induction utxos generalizing funds chosen with
  | nil =>
    rw [choose] at found
    split_ifs at found with done
    cases found
    rw [eq_zero_iff.1 done, worth_nil]
  | cons u utxos ih =>
    have pos := positive u List.mem_cons_self
    have rest : ∀ v ∈ utxos, 0 < v.value.value := fun v inside =>
      positive v (List.mem_cons_of_mem u inside)
    rw [choose_cons] at found
    split_ifs at found with done affordable last
    · cases found
      rw [eq_zero_iff.1 done, worth_nil]
    · obtain ⟨more, later, rfl⟩ := Option.map_eq_some_iff.1 found
      have enough := ih ascending.tail rest later
      rw [minus_value pos affordable] at enough
      rw [worth_cons]
      linarith
    · cases found
      rw [worth_cons, worth_nil]
      linarith
    · exact ih ascending.tail rest found

theorem choose_isSome_iff (ascending : Ascending utxos)
    (positive : ∀ u ∈ utxos, 0 < u.value.value) (nonneg : 0 ≤ funds.value) :
    (choose utxos funds).isSome = true ↔ funds.value ≤ worth utxos := by
  induction utxos generalizing funds with
  | nil =>
    rw [choose, worth_nil]
    split_ifs with done
    · exact iff_of_true rfl (eq_zero_iff.1 done).le
    · refine iff_of_false nofun fun le => done (eq_zero_iff.2 (le_antisymm le nonneg))
  | cons u utxos ih =>
    have pos := positive u List.mem_cons_self
    have rest : ∀ v ∈ utxos, 0 < v.value.value := fun v inside =>
      positive v (List.mem_cons_of_mem u inside)
    have more := worth_nonneg rest
    rw [choose_cons, worth_cons]
    split_ifs with done affordable last
    · refine iff_of_true rfl ?_
      rw [eq_zero_iff.1 done]
      linarith
    · have left := minus_value pos affordable
      rw [Option.isSome_map, ih ascending.tail rest (by linarith), left]
      constructor
      · intro le
        linarith
      · intro le
        linarith
    · exact iff_of_true rfl (by linarith)
    · obtain ⟨v, others, rfl⟩ := List.exists_cons_of_ne_nil last
      have larger := List.rel_of_pairwise_cons ascending (List.mem_cons_self (a := v))
      have tail : 0 ≤ worth others := worth_nonneg fun x inside =>
        rest x (List.mem_cons_of_mem v inside)
      rw [ih ascending.tail rest nonneg, worth_cons]
      exact iff_of_true (by linarith) (by linarith)

theorem choose_eq_none_of_neg (positive : ∀ u ∈ utxos, 0 < u.value.value)
    (negative : funds.value < 0) : choose utxos funds = none ↔ utxos = [] := by
  have notZero : funds ≠ .zero := fun zero => by
    rw [eq_zero_iff.1 zero] at negative
    exact lt_irrefl 0 negative
  induction utxos with
  | nil =>
    rw [choose, if_neg notZero]
    exact iff_of_true rfl rfl
  | cons u utxos ih =>
    have pos := positive u List.mem_cons_self
    have rest : ∀ v ∈ utxos, 0 < v.value.value := fun v inside =>
      positive v (List.mem_cons_of_mem u inside)
    rw [choose_cons, if_neg notZero, if_neg (by linarith)]
    split_ifs with last
    · exact iff_of_false nofun nofun
    · exact iff_of_false (fun none_ => last ((ih rest).1 none_)) nofun

end Selection

section Sums

theorem wrap_plus (z : ℤ) (b : IntCell) : (IntCell.wrap z).plus b = .wrap (z + b.value) := by
  refine IntCell.ext ?_
  exact Int.bmod_add_bmod

theorem wrap_zero : IntCell.wrap 0 = .zero :=
  IntCell.ext (IntCell.wrap_value (by norm_num) (by norm_num))

theorem sum_eq (amounts : List IntCell) :
    sum amounts = .wrap (amounts.map IntCell.value).sum := by
  induction amounts with
  | nil => exact wrap_zero.symm
  | cons x xs ih => rw [sum, ih, wrap_plus, List.map_cons, List.sum_cons, add_comm]

theorem sumUtxo_eq (utxos : List Utxo) : sumUtxo utxos .zero = .wrap (worth utxos) := by
  induction utxos with
  | nil => exact wrap_zero.symm
  | cons u utxos ih => rw [sumUtxo, ih, wrap_plus, worth_cons, add_comm]

theorem rest_value {z t : ℤ} (low : -2 ^ 60 ≤ z - t) (high : z - t < 2 ^ 60) :
    ((IntCell.wrap z).minus (.wrap t)).value = z - t := by
  have same : ((IntCell.wrap z).minus (.wrap t)).value = (z - t).bmod (2 ^ 61) :=
    Int.bmod_sub_bmod.trans (Int.sub_bmod_bmod)
  rw [same]
  exact IntCell.wrap_value low high

end Sums

section Reading

variable {Address PubKey Sig PrivKey HashValue : Type}

/-- Where a share of a split goes -/
inductive Receiver (Address : Type)
  | fee
  | pay (address : Address)

/-- The outputs that a script opens, with the variables of their coins -/
def opened : List (Goal Address PubKey) → List (IntCell × ℕ)
  | .defrost heapAddress closure _ _ _ _ :: .arg n closure' coin :: goals =>
    if n = 7 ∧ closure' = closure then (heapAddress, coin) :: opened goals else opened goals
  | _ :: goals => opened goals
  | [] => []

def joins (goals : List (Goal Address PubKey)) : List (List ℕ × ℕ) :=
  goals.filterMap fun
    | .cjoin coins sumCoin => some (coins, sumCoin)
    | _ => none

def splits (goals : List (Goal Address PubKey)) : List (ℕ × List IntCell × List ℕ) :=
  goals.filterMap fun
    | .csplit coin amounts coins => some (coin, amounts, coins)
    | _ => none

def paidTo (coin : ℕ) : Goal Address PubKey → Option Address
  | .tx coin' _ _ _ address _ => if coin' = coin then some address else none
  | _ => none

/-- The addresses that transactions send a coin to -/
def received (goals : List (Goal Address PubKey)) (coin : ℕ) : List Address :=
  goals.filterMap (paidTo coin)

/-- All that takes a coin: the fee in the head of the script, and transactions -/
def receivers (feeCoin : ℕ) (goals : List (Goal Address PubKey)) (coin : ℕ) :
    List (Receiver Address) :=
  (if coin = feeCoin then [.fee] else []) ++ (received goals coin).map .pay

/-- The shares of the splits of a script with their receivers -/
def payments (feeCoin : ℕ) (goals : List (Goal Address PubKey)) :
    List (ℤ × List (Receiver Address)) :=
  (splits goals).flatMap fun s => (s.2.1.map IntCell.value).zip (s.2.2.map (receivers feeCoin goals))

variable {goals goals' : List (Goal Address PubKey)}

@[simp] theorem joins_append : joins (goals ++ goals') = joins goals ++ joins goals' :=
  List.filterMap_append

@[simp] theorem splits_append : splits (goals ++ goals') = splits goals ++ splits goals' :=
  List.filterMap_append

@[simp] theorem received_append (coin : ℕ) :
    received (goals ++ goals') coin = received goals coin ++ received goals' coin :=
  List.filterMap_append

theorem toList_listToCommas {α : Type} {xs : List α} {c : Commas α}
    (found : listToCommas xs = some c) : c.toList = xs := by
  induction xs generalizing c with
  | nil => cases found
  | cons x xs ih =>
    cases xs with
    | nil =>
      cases found
      rfl
    | cons y ys =>
      obtain ⟨rest, later, rfl⟩ := Option.map_eq_some_iff.1 found
      rw [Commas.toList, ih later]

theorem received_tx (coin coin' v v1 v2 v3 : ℕ) (address : Address) :
    received (.tx coin' v v1 v2 address v3 :: goals) coin =
      if coin' = coin then address :: received goals coin else received goals coin := by
  unfold received
  split_ifs with same
  · exact List.filterMap_cons_some (if_pos same)
  · exact List.filterMap_cons_none (if_neg same)

/-- The goals that open outputs, and nothing else about them. -/
structure Opening (chosen : List Utxo) (next : ℕ) (coins : List ℕ)
    (commands : List (Goal Address PubKey)) (next' : ℕ) : Prop where
  le : next ≤ next'
  length : coins.length = chosen.length
  below : ∀ c ∈ coins, next ≤ c ∧ c < next'
  opened_eq : ∀ goals, opened (commands ++ goals) =
    (chosen.map Utxo.heapAddress).zip coins ++ opened goals
  joins_eq : joins commands = []
  splits_eq : splits commands = []
  received_eq : ∀ coin, received commands coin = []

section Opened

variable [DecidableEq Address] {keys : Keys Address PubKey Sig PrivKey HashValue}
  {w : WalletState Address}

theorem openUtxo_some {heapAddress : IntCell} {hash next coin : ℕ} {s : Sign Address}
    {commands : List (Goal Address PubKey)}
    (found : openUtxo keys w heapAddress hash next = some (coin, s, commands)) :
    coin = next ∧ ∃ pubKey address, commands =
      [.defrost heapAddress (next + 2) hash (next + 1) pubKey address, .arg 7 (next + 2) next] := by
  obtain ⟨fact, -, found⟩ := List.exists_of_findSome?_eq_some found
  split_ifs at found with here
  obtain ⟨count, -, found⟩ := Option.bind_eq_some_iff.1 found
  obtain ⟨pubKey, -, found⟩ := Option.bind_eq_some_iff.1 found
  cases found
  exact ⟨rfl, pubKey, fact.data, rfl⟩

theorem openUtxos_opening {hash : ℕ} {chosen : List Utxo} {next next' : ℕ} {coins : List ℕ}
    {signs : List (Sign Address)} {commands : List (Goal Address PubKey)}
    (found : openUtxos keys w hash chosen next = some (coins, signs, commands, next')) :
    Opening chosen next coins commands next' := by
  induction chosen generalizing next coins signs commands with
  | nil =>
    cases found
    exact ⟨le_rfl, rfl, nofun, fun _ => rfl, rfl, rfl, fun _ => rfl⟩
  | cons u chosen ih =>
    obtain ⟨⟨coin, s, commands0⟩, first, found⟩ := Option.bind_eq_some_iff.1 found
    obtain ⟨⟨coins', signs', commands1, next₁⟩, later, found⟩ := Option.bind_eq_some_iff.1 found
    cases found
    obtain ⟨rfl, pubKey, address, rfl⟩ := openUtxo_some first
    have rest := ih later
    refine ⟨(Nat.le_add_right _ 3).trans rest.le, congrArg (· + 1) rest.length, ?_, ?_, ?_, ?_, ?_⟩
    · intro c inside
      have le := rest.le
      obtain rfl | inside := List.mem_cons.1 inside
      · omega
      · have := rest.below c inside
        omega
    · intro goals
      rw [List.append_assoc, List.cons_append, List.cons_append, List.nil_append, opened,
        if_pos ⟨rfl, rfl⟩, rest.opened_eq]
      rfl
    · rw [joins_append, rest.joins_eq]
      rfl
    · rw [splits_append, rest.splits_eq]
      rfl
    · intro coin
      rw [received_append, rest.received_eq]
      rfl

end Opened

def sendCoins : List Address → ℕ → List ℕ
  | [], _ => []
  | _ :: addresses, next => next :: sendCoins addresses (next + 5)

theorem getCoins_sendTxs (addresses : List Address) (next : ℕ) :
    getCoins (sendTxs addresses next : List (Goal Address PubKey)) =
      some (sendCoins addresses next) := by
  induction addresses generalizing next with
  | nil => rfl
  | cons a addresses ih =>
    rw [sendTxs, getCoins, ih]
    rfl

theorem le_of_mem_sendCoins {addresses : List Address} {next c : ℕ}
    (inside : c ∈ sendCoins addresses next) : next ≤ c := by
  induction addresses generalizing next with
  | nil => cases inside
  | cons a addresses ih =>
    obtain rfl | inside := List.mem_cons.1 inside
    · exact le_rfl
    · exact (Nat.le_add_right _ 5).trans (ih inside)

theorem received_sendTxs_of_lt (addresses : List Address) {next c : ℕ} (less : c < next) :
    received (sendTxs addresses next : List (Goal Address PubKey)) c = [] := by
  induction addresses generalizing next with
  | nil => rfl
  | cons a addresses ih =>
    have other : next ≠ c := less.ne'
    rw [sendTxs, received_tx, if_neg other]
    exact ih (by omega)

variable (PubKey) in
theorem received_sendTxs (addresses : List Address) (next : ℕ) :
    (sendCoins addresses next).map
      (received (sendTxs addresses next : List (Goal Address PubKey))) =
        addresses.map fun a => [a] := by
  induction addresses generalizing next with
  | nil => rfl
  | cons a addresses ih =>
    have own : received (sendTxs (a :: addresses) next : List (Goal Address PubKey)) next = [a] := by
      rw [sendTxs, received_tx, if_pos rfl, received_sendTxs_of_lt addresses (by omega)]
    have later : ∀ c ∈ sendCoins addresses (next + 5),
        received (sendTxs (a :: addresses) next : List (Goal Address PubKey)) c =
          received (sendTxs addresses (next + 5) : List (Goal Address PubKey)) c := by
      intro c inside
      have other : next ≠ c := by
        have := le_of_mem_sendCoins inside
        omega
      rw [sendTxs, received_tx, if_neg other]
    rw [sendCoins, List.map_cons, List.map_cons, own, List.map_congr_left later, ih]

variable (PubKey) in
theorem reading_sendTxs (addresses : List Address) (next : ℕ) :
    opened (sendTxs addresses next : List (Goal Address PubKey)) = [] ∧
      joins (sendTxs addresses next : List (Goal Address PubKey)) = [] ∧
      splits (sendTxs addresses next : List (Goal Address PubKey)) = [] := by
  induction addresses generalizing next with
  | nil => exact ⟨rfl, rfl, rfl⟩
  | cons a addresses ih => exact ih (next + 5)

/-- The goals before the split: the outputs are opened, and joined unless there is one only. -/
structure Joined (chosen : List Utxo) (coins : List ℕ) (sumCoin : ℕ)
    (commands : List (Goal Address PubKey)) : Prop where
  length : coins.length = chosen.length
  opened_eq : ∀ goals, opened (commands ++ goals) =
    (chosen.map Utxo.heapAddress).zip coins ++ opened goals
  joined : coins = [sumCoin] ∧ joins commands = [] ∨ joins commands = [(coins, sumCoin)]
  splits_eq : splits commands = []
  received_eq : ∀ coin, received commands coin = []

theorem Opening.joined {chosen : List Utxo} {next next' : ℕ} {coins : List ℕ}
    {commands : List (Goal Address PubKey)} (opening : Opening chosen next coins commands next') :
    Joined chosen coins (joinCoins coins commands).1 (joinCoins coins commands).2 := by
  have joinedBy : ∀ sumCoin, Joined chosen coins sumCoin (commands ++ [.cjoin coins sumCoin]) := by
    intro sumCoin
    refine ⟨opening.length, fun goals => ?_, .inr ?_, ?_, fun coin => ?_⟩
    · rw [List.append_assoc, opening.opened_eq]
      rfl
    · rw [joins_append, opening.joins_eq]
      rfl
    · rw [splits_append, opening.splits_eq]
      rfl
    · rw [received_append, opening.received_eq]
      rfl
  rcases coins with _ | ⟨sumCoin, _ | ⟨coin, coins⟩⟩
  · exact joinedBy 1
  · exact ⟨opening.length, opening.opened_eq, .inl ⟨rfl, opening.joins_eq⟩, opening.splits_eq,
      opening.received_eq⟩
  · exact joinedBy 1

theorem Joined.reading {chosen : List Utxo} {coins : List ℕ} {sumCoin : ℕ}
    {commands tail : List (Goal Address PubKey)} (feeCoin : ℕ) (shares : List IntCell)
    (shareCoins : List ℕ) (joined : Joined chosen coins sumCoin commands) (opened_tail : opened tail = [])
    (joins_tail : joins tail = []) (splits_tail : splits tail = []) :
    opened (commands ++ .csplit sumCoin shares shareCoins :: tail) =
        (chosen.map Utxo.heapAddress).zip coins ∧
      joins (commands ++ .csplit sumCoin shares shareCoins :: tail) = joins commands ∧
      splits (commands ++ .csplit sumCoin shares shareCoins :: tail) =
        [(sumCoin, shares, shareCoins)] ∧
      payments feeCoin (commands ++ .csplit sumCoin shares shareCoins :: tail) =
        (shares.map IntCell.value).zip (shareCoins.map (receivers feeCoin tail)) := by
  have splitOnce : splits (commands ++ .csplit sumCoin shares shareCoins :: tail) =
      [(sumCoin, shares, shareCoins)] := by
    rw [splits_append, joined.splits_eq]
    exact congrArg ([(sumCoin, shares, shareCoins)] ++ ·) splits_tail
  refine ⟨?_, ?_, splitOnce, ?_⟩
  · rw [joined.opened_eq]
    exact (congrArg _ opened_tail).trans (List.append_nil _)
  · rw [joins_append]
    exact (congrArg _ joins_tail).trans (List.append_nil _)
  · have sameReceivers : receivers feeCoin (commands ++ .csplit sumCoin shares shareCoins :: tail) =
        receivers feeCoin tail := by
      funext coin
      rw [receivers, received_append, joined.received_eq]
      rfl
    rw [payments, splitOnce, List.flatMap_singleton, sameReceivers]

variable (PubKey) in
theorem receivers_sendCoins (addresses : List Address) {feeCoin next : ℕ} (above : feeCoin < next) :
    (sendCoins addresses next).map (receivers feeCoin
      (sendTxs addresses next : List (Goal Address PubKey))) =
        addresses.map fun a => [.pay a] := by
  have paid := congrArg (List.map (List.map Receiver.pay))
    (received_sendTxs PubKey addresses next)
  rw [List.map_map, List.map_map] at paid
  refine Eq.trans (List.map_congr_left fun c inside => ?_) paid
  have other : c ≠ feeCoin := by
    have := le_of_mem_sendCoins inside
    omega
  rw [receivers, if_neg other]
  rfl

theorem length_sendCoins (addresses : List Address) (next : ℕ) :
    (sendCoins addresses next).length = addresses.length := by
  induction addresses generalizing next with
  | nil => rfl
  | cons a addresses ih => exact congrArg (· + 1) (ih _)

end Reading

section Balance

variable {Address PubKey Sig PrivKey HashValue : Type}

/-- The script splits the joined coin of the opened outputs into shares that are worth the same.
The fee, the change if there is any, and each amount have one receiver each; the change goes to
the key after the last one. -/
structure Settles (keys : Keys Address PubKey Sig PrivKey HashValue) (w w' : WalletState Address)
    (chosen : List Utxo) (addresses : List Address) (amounts : List IntCell) (fee : IntCell)
    (total : ℤ) (script : Script Address PubKey) : Prop where
  split : ∃ coins sumCoin shares shareCoins,
    opened script.command.toList = (chosen.map Utxo.heapAddress).zip coins ∧
    coins.length = chosen.length ∧
    (coins = [sumCoin] ∧ joins script.command.toList = [] ∨
      joins script.command.toList = [(coins, sumCoin)]) ∧
    splits script.command.toList = [(sumCoin, shares, shareCoins)] ∧
    shareCoins.length = shares.length ∧ (shares.map IntCell.value).sum = worth chosen
  pays : worth chosen = total ∧ w'.numkeys = w.numkeys ∧
      payments script.feeCoin script.command.toList = (fee.value, [.fee]) ::
        (amounts.map IntCell.value).zip (addresses.map fun a => [.pay a]) ∨
    total < worth chosen ∧ w'.numkeys = w.numkeys + 1 ∧
      ∃ pubKey, keys.pubkey w.numkeys = some pubKey ∧
        payments script.feeCoin script.command.toList = (fee.value, [.fee]) ::
          (worth chosen - total, [.pay (keys.address pubKey)]) ::
            (amounts.map IntCell.value).zip (addresses.map fun a => [.pay a])

/-- What is to be paid, with the fee -/
def totalOf (amounts : List IntCell) (fee : IntCell) : ℤ :=
  (amounts.map IntCell.value).sum + fee.value

def offered (w : WalletState Address) : List Utxo :=
  w.utxo.map fun fact => ⟨fact.value, fact.heapAddress⟩

variable {keys : Keys Address PubKey Sig PrivKey HashValue} {w w' : WalletState Address}
  {addresses : List Address} {amounts : List IntCell} {fee : IntCell}

theorem total_eq (amounts : List IntCell) (fee : IntCell) :
    (sum amounts).plus fee = .wrap (totalOf amounts fee) := by
  rw [sum_eq, wrap_plus, totalOf]

theorem splitCoin_settles {w₁ : WalletState Address} {chosen : List Utxo} {coins : List ℕ}
    {sumCoin next : ℕ} {rest : IntCell} {commands commands2 : List (Goal Address PubKey)}
    {signVars : List ℕ} {command : Commas (Goal Address PubKey)}
    (joined : Joined chosen coins sumCoin commands) (large : 4 ≤ next)
    (length : addresses.length = amounts.length) (numkeys : w₁.numkeys = w.numkeys)
    (enough : totalOf amounts fee ≤ worth chosen)
    (rest_eq : rest.value = worth chosen - totalOf amounts fee)
    (built : splitCoin keys w₁ commands sumCoin fee rest amounts (sendCoins addresses (next + 4))
      (sendTxs addresses (next + 4)) next = some (commands2, w'))
    (commas : command.toList = commands2) :
    Settles keys w w' chosen addresses amounts fee (totalOf amounts fee)
      ⟨0, signVars, 2, command⟩ := by
  obtain ⟨opened_txs, joins_txs, splits_txs⟩ :=
    reading_sendTxs PubKey addresses (next + 4)
  have outside : ∀ c, c < 4 → received
      (sendTxs addresses (next + 4) : List (Goal Address PubKey)) c = [] := fun c less =>
    received_sendTxs_of_lt addresses (by omega)
  unfold splitCoin at built
  split_ifs at built with more
  · obtain ⟨⟨changeAddr, w₂⟩, fresh, built⟩ := Option.bind_eq_some_iff.1 built
    obtain ⟨publicKey, known, fresh⟩ := Option.bind_eq_some_iff.1 fresh
    cases fresh
    cases built
    rw [List.append_assoc] at commas
    let change : Goal Address PubKey :=
      .tx 3 next (next + 1) (next + 2) (keys.address publicKey) (next + 3)
    obtain ⟨opened_eq, joins_eq, splits_eq, payments_eq⟩ := joined.reading 2
      (fee :: rest :: amounts) (2 :: 3 :: sendCoins addresses (next + 4))
      (show opened (change :: sendTxs addresses (next + 4)) = [] from opened_txs) joins_txs splits_txs
    have pays : ∀ c, received (change :: sendTxs addresses (next + 4)) c =
        if 3 = c then keys.address publicKey :: received (sendTxs addresses (next + 4) : List _) c
        else received (sendTxs addresses (next + 4) : List (Goal Address PubKey)) c := fun c =>
      received_tx c 3 next (next + 1) (next + 2) (next + 3) (keys.address publicKey)
    have later : (sendCoins addresses (next + 4)).map (receivers 2
        (change :: sendTxs addresses (next + 4))) = addresses.map fun a => [.pay a] := by
      rw [← receivers_sendCoins PubKey addresses (show 2 < next + 4 by omega)]
      refine List.map_congr_left fun c inside => ?_
      have above := le_of_mem_sendCoins inside
      rw [receivers, receivers, pays, if_neg (show ¬ 3 = c by omega)]
    refine ⟨⟨coins, sumCoin, fee :: rest :: amounts, 2 :: 3 :: sendCoins addresses (next + 4), ?_,
      joined.length, ?_, ?_, ?_, ?_⟩, .inr ⟨by omega, congrArg (· + 1) numkeys, publicKey, ?_, ?_⟩⟩
    · rw [commas]
      exact opened_eq
    · rw [commas]
      exact joins_eq ▸ joined.joined
    · rw [commas]
      exact splits_eq
    · rw [List.length_cons, List.length_cons, List.length_cons, List.length_cons, length_sendCoins,
        length]
    · rw [List.map_cons, List.map_cons, List.sum_cons, List.sum_cons, rest_eq, totalOf]
      omega
    · rw [← numkeys]
      exact known
    · rw [commas]
      refine payments_eq.trans ?_
      rw [List.map_cons, List.map_cons, List.map_cons, List.map_cons, List.zip_cons_cons,
        List.zip_cons_cons, later, rest_eq, receivers, if_pos rfl, pays, if_neg (by omega),
        outside 2 (by omega), receivers, if_neg (by omega), pays, if_pos rfl, outside 3 (by omega)]
      rfl
  · cases built
    rw [List.append_assoc] at commas
    obtain ⟨opened_eq, joins_eq, splits_eq, payments_eq⟩ := joined.reading 2 (fee :: amounts)
      (2 :: sendCoins addresses (next + 4)) opened_txs joins_txs splits_txs
    have same : worth chosen = totalOf amounts fee := by omega
    refine ⟨⟨coins, sumCoin, fee :: amounts, 2 :: sendCoins addresses (next + 4), ?_, joined.length,
      ?_, ?_, ?_, ?_⟩, .inl ⟨same, numkeys, ?_⟩⟩
    · rw [commas]
      exact opened_eq
    · rw [commas]
      exact joins_eq ▸ joined.joined
    · rw [commas]
      exact splits_eq
    · rw [List.length_cons, List.length_cons, length_sendCoins, length]
    · rw [same, totalOf, List.map_cons, List.sum_cons, add_comm]
    · rw [commas]
      refine payments_eq.trans ?_
      rw [List.map_cons, List.map_cons, List.zip_cons_cons, receivers_sendCoins _ _ (by omega),
        receivers, if_pos rfl, outside 2 (by omega)]
      rfl

theorem choose_nodup {chosen : List Utxo} {funds : IntCell}
    (distinct : (w.utxo.map UtxoFact.heapAddress).Nodup)
    (found : choose (sort (offered w)) funds = some chosen) :
    chosen.Nodup ∧ ∀ u ∈ chosen, u ∈ offered w := by
  have nodup : (offered w).Nodup := by
    refine List.Nodup.of_map Utxo.heapAddress ?_
    rw [offered, List.map_map]
    exact distinct
  have sub := choose_sublist found
  exact ⟨sub.nodup ((sort_perm _).nodup_iff.2 nodup), fun u inside =>
    (sort_perm _).mem_iff.1 (sub.subset inside)⟩

variable [DecidableEq Address]

/-- The payment is balanced: outputs are chosen when they suffice, they are distinct and suffice,
and the transaction settles the payment with them. -/
structure Balances (keys : Keys Address PubKey Sig PrivKey HashValue) (w : WalletState Address)
    (addresses : List Address) (amounts : List IntCell) (fee : IntCell) : Prop where
  selects : (choose (sort (offered w)) ((sum amounts).plus fee)).isSome = true ↔
    totalOf amounts fee ≤ worth (offered w)
  suffices_ : ∀ chosen, choose (sort (offered w)) ((sum amounts).plus fee) = some chosen →
    chosen.Nodup ∧ (∀ u ∈ chosen, u ∈ offered w) ∧ totalOf amounts fee ≤ worth chosen
  settles : ∀ finalTx consumed w', spendMany keys w addresses amounts fee =
      some (finalTx, consumed, w') →
    ∃ chosen assigns script, choose (sort (offered w)) ((sum amounts).plus fee) = some chosen ∧
      consumed = chosen.map Utxo.heapAddress ∧
      finalTx.toList = assigns ++ [.script script] ∧
      Settles keys w w' chosen addresses amounts fee (totalOf amounts fee) script

theorem cacheAddresses_some (cached : cacheAddresses keys w = some w') :
    w'.utxo = w.utxo ∧ w'.numkeys = w.numkeys := by
  obtain ⟨-, -, cached⟩ := Option.bind_eq_some_iff.1 cached
  obtain ⟨validAddress, -, cached⟩ := Option.bind_eq_some_iff.1 cached
  cases cached
  exact ⟨rfl, rfl⟩

theorem spendMany_some {finalTx : Commas (TxGoal Address PubKey Sig)} {consumed : List IntCell}
    (built : spendMany keys w addresses amounts fee = some (finalTx, consumed, w'))
    (length : addresses.length = amounts.length)
    (right : ∀ chosen, choose (sort (offered w)) ((sum amounts).plus fee) = some chosen →
      totalOf amounts fee ≤ worth chosen ∧ worth chosen < totalOf amounts fee + 2 ^ 60) :
    ∃ chosen assigns script, choose (sort (offered w)) ((sum amounts).plus fee) = some chosen ∧
      consumed = chosen.map Utxo.heapAddress ∧ finalTx.toList = assigns ++ [.script script] ∧
      Settles keys w w' chosen addresses amounts fee (totalOf amounts fee) script := by
  obtain ⟨w₁, cached, built⟩ := Option.bind_eq_some_iff.1 built
  obtain ⟨sameUtxo, numkeys⟩ := cacheAddresses_some cached
  obtain ⟨chosen, found, built⟩ := Option.bind_eq_some_iff.1 built
  obtain ⟨⟨coins, signs, commands, next⟩, opened, built⟩ := Option.bind_eq_some_iff.1 built
  obtain ⟨sent, sends, built⟩ := Option.bind_eq_some_iff.1 built
  rw [getCoins_sendTxs] at sends
  cases sends
  obtain ⟨⟨commands2, w₂⟩, split, built⟩ := Option.bind_eq_some_iff.1 built
  obtain ⟨command, commas, built⟩ := Option.bind_eq_some_iff.1 built
  obtain ⟨assigns, -, built⟩ := Option.bind_eq_some_iff.1 built
  obtain ⟨tx, final, built⟩ := Option.bind_eq_some_iff.1 built
  cases built
  rw [sameUtxo] at found
  obtain ⟨enough, less⟩ := right chosen found
  have opening := openUtxos_opening opened
  refine ⟨chosen, assigns, _, found, rfl, toList_listToCommas final, ?_⟩
  refine splitCoin_settles opening.joined opening.le length numkeys enough ?_ split
    (toList_listToCommas commas)
  rw [sumUtxo_eq, total_eq]
  exact rest_value (by linarith) (by linarith)

theorem choose_of_spendMany (built : (spendMany keys w addresses amounts fee).isSome = true) :
    choose (sort (offered w)) ((sum amounts).plus fee) ≠ none := by
  intro none_
  obtain ⟨result, built⟩ := Option.isSome_iff_exists.1 built
  obtain ⟨w₁, cached, built⟩ := Option.bind_eq_some_iff.1 built
  obtain ⟨chosen, found, -⟩ := Option.bind_eq_some_iff.1 built
  rw [(cacheAddresses_some cached).1] at found
  exact nomatch found.symm.trans none_

theorem bmod_le {t : ℤ} (nonneg : 0 ≤ t) : t.bmod (2 ^ 61) ≤ t := by
  rw [Int.bmod_def]
  norm_num
  split_ifs <;> omega

theorem bmod_add_le {t : ℤ} (large : 2 ^ 60 ≤ t) : t.bmod (2 ^ 61) + 2 ^ 61 ≤ t := by
  rw [Int.bmod_def]
  norm_num at large ⊢
  split_ifs <;> omega

/-- When the integers of the interpreter are large enough for the selection: the total fits, or
nothing is chosen for what is left of it. -/
def Fits (w : WalletState Address) (total : ℤ) : Prop :=
  total < 2 ^ 60 ∨ worth (offered w) < total.bmod (2 ^ 61) ∨
    w.utxo = [] ∧ total.bmod (2 ^ 61) < 0

theorem balances_of_none (none_ : choose (sort (offered w)) ((sum amounts).plus fee) = none)
    (poor : worth (offered w) < totalOf amounts fee) : Balances keys w addresses amounts fee where
  selects := by
    rw [none_]
    exact iff_of_false nofun (not_le.2 poor)
  suffices_ chosen found := nomatch none_.symm.trans found
  settles finalTx consumed w' built :=
    absurd none_ (choose_of_spendMany (Option.isSome_iff_exists.2 ⟨_, built⟩))

/-- For outputs of positive value at distinct addresses and a positive total, the payment is
balanced exactly where the total fits. -/
theorem spend_many_balances_iff (keys : Keys Address PubKey Sig PrivKey HashValue)
    (w : WalletState Address) (addresses : List Address) (amounts : List IntCell) (fee : IntCell)
    (distinct : (w.utxo.map UtxoFact.heapAddress).Nodup)
    (positive : ∀ fact ∈ w.utxo, 0 < fact.value.value)
    (length : addresses.length = amounts.length) (positiveTotal : 0 < totalOf amounts fee) :
    Balances keys w addresses amounts fee ↔ Fits w (totalOf amounts fee) := by
  have gains : ∀ u ∈ offered w, 0 < u.value.value := by
    intro u inside
    obtain ⟨fact, member, rfl⟩ := List.mem_map.1 inside
    exact positive fact member
  have gains' : ∀ u ∈ sort (offered w), 0 < u.value.value := fun u inside =>
    gains u ((sort_perm _).mem_iff.1 inside)
  have ascending := sort_ascending (offered w)
  have same : worth (sort (offered w)) = worth (offered w) := worth_perm (sort_perm _)
  have funds := total_eq amounts fee
  have left : (IntCell.wrap (totalOf amounts fee)).value = (totalOf amounts fee).bmod (2 ^ 61) := rfl
  have nonneg := worth_nonneg gains
  constructor
  · intro balances
    by_contra misfit
    rw [Fits, not_or, not_or, not_lt, not_lt, not_and_or, not_lt] at misfit
    obtain ⟨large, enough, notEmpty⟩ := misfit
    have lost := bmod_add_le large
    have taken : choose (sort (offered w)) ((sum amounts).plus fee) ≠ none := by
      rw [funds]
      rcases le_or_gt 0 ((totalOf amounts fee).bmod (2 ^ 61)) with pos | neg
      · have found := (choose_isSome_iff ascending gains' (left ▸ pos)).2 (by rw [left, same]; exact enough)
        exact Option.isSome_iff_ne_none.1 found
      · rw [ne_eq, choose_eq_none_of_neg gains' (left ▸ neg)]
        intro empty
        have none_ : w.utxo = [] := by
          have perm := sort_perm (offered w)
          rw [empty] at perm
          exact List.map_eq_nil_iff.1 perm.nil_eq.symm
        exact notEmpty.elim (fun some_ => some_ none_) fun pos => absurd neg (not_lt.2 pos)
    obtain ⟨chosen, found⟩ := Option.ne_none_iff_exists'.1 taken
    have suffices_ := (balances.suffices_ chosen found).2.2
    have less := worth_choose_lt gains' found
    rw [funds, left] at less
    rcases le_total ((totalOf amounts fee).bmod (2 ^ 61)) 0 with neg | pos
    · rw [max_eq_right neg] at less
      linarith
    · rw [max_eq_left pos] at less
      linarith
  · rintro (fits | poor | ⟨empty, neg⟩)
    · have value : ((sum amounts).plus fee).value = totalOf amounts fee := by
        rw [funds]
        exact IntCell.wrap_value (by linarith) fits
      refine ⟨?_, fun chosen found => ?_, fun finalTx consumed w' built => ?_⟩
      · rw [choose_isSome_iff ascending gains' (by rw [value]; exact positiveTotal.le), value, same]
      · obtain ⟨nodup, inside⟩ := choose_nodup distinct found
        refine ⟨nodup, inside, ?_⟩
        rw [← value]
        exact le_worth_choose ascending gains' found
      · refine spendMany_some built length fun chosen found => ?_
        have enough := le_worth_choose ascending gains' found
        have less := worth_choose_lt gains' found
        rw [value] at enough less
        rw [max_eq_left positiveTotal.le] at less
        exact ⟨enough, less⟩
    · have below := bmod_le positiveTotal.le
      refine balances_of_none ?_ (by linarith)
      rw [funds, ← Option.not_isSome_iff_eq_none,
        choose_isSome_iff ascending gains' (by rw [left]; linarith), left, same, not_le]
      exact poor
    · have none_ : offered w = [] := by rw [offered, empty]; rfl
      refine balances_of_none ?_ (by rw [none_, worth_nil]; exact positiveTotal)
      rw [funds, choose_eq_none_of_neg gains' (left ▸ neg), none_]
      rfl

end Balance

section Samples

/-- Keys and addresses that are numbers -/
def plainKeys : Keys ℕ ℕ Unit ℕ Unit where
  pubkey := some
  privkey := some
  address := id
  hash _ := ()
  sign _ _ := ()

/-- Two keys, and an output of the value 10 for each -/
def plainWallet : WalletState ℕ where
  utxo := [⟨.wrap 100, true, .wrap 10, 0⟩, ⟨.wrap 50, true, .wrap 10, 1⟩]
  numkeys := 2
  lastAddress := none
  validAddress := []

/-- Both outputs are opened for two payments, and 3 of the change remain. -/
theorem plain_balances : (spendMany plainKeys plainWallet [7, 8] [.wrap 9, .wrap 6] (.wrap 2)).isSome =
      true ∧
    Balances plainKeys plainWallet [7, 8] [.wrap 9, .wrap 6] (.wrap 2) := by
  refine ⟨by decide, (spend_many_balances_iff plainKeys plainWallet [7, 8]
    [.wrap 9, .wrap 6] (.wrap 2) (by decide) ?_ rfl (by decide)).2
      (.inl (by decide))⟩
  intro fact inside
  obtain rfl | rfl | inside := List.mem_cons.1 inside |>.imp id List.mem_cons.1
  · decide
  · decide
  · cases inside

/-- Amounts that sum up to 1 in the integers of the interpreter -/
def hugeAmounts : List IntCell := [.wrap (2 ^ 60 - 1), .wrap (2 ^ 60 - 1), .wrap 3]

theorem huge_unbalanced : 0 < totalOf hugeAmounts .zero ∧ (∀ a ∈ hugeAmounts, 0 < a.value) ∧
    ¬ Balances plainKeys plainWallet [7, 8, 9] hugeAmounts .zero := by
  refine ⟨by decide, ?_, fun balances => ?_⟩
  · intro a inside
    rcases List.mem_cons.1 inside |>.imp id (fun h => List.mem_cons.1 h |>.imp id List.mem_cons.1)
      with rfl | rfl | rfl | inside
    · decide
    · decide
    · decide
    · cases inside
  · have chosen := balances.selects.1 (by decide)
    exact absurd chosen (by decide)

end Samples


end Epilog.Wallet.Spending
