/- Module: Epilog/Common/BigNumbers
   source: src/src/common/term.hpp, src/src/common/term.cpp (new_big, set_big, get_big of numbers)
   digest: Numbers stored in new bignums and read back. -/

import Epilog.Common.BigBytes
import Mathlib.Data.Nat.Digits.Lemmas

set_option autoImplicit false

namespace Epilog.Common.BigNumbers

open Epilog.Common.Term Epilog.Common.Heap Epilog.Lib.ByteLanes Epilog.Common.BigBytes

section Digits

/-- `export_bits(i, out, 8)`: the bytes from the most significant one on, and one byte for 0. -/
def exportBits (i : ℕ) : List UInt8 :=
  if i = 0 then [0] else ((Nat.digits 256 i).map UInt8.ofNat).reverse

/-- `import_bits(i, begin, end, 8)` -/
def importBits (bytes : List UInt8) : ℕ := Nat.ofDigits 256 (bytes.reverse.map UInt8.toNat)

theorem importBits_exportBits (i : ℕ) : importBits (exportBits i) = i := by
  unfold exportBits importBits
  split_ifs with zero
  · rw [zero]
    rfl
  · have digits : (Nat.digits 256 i).map (UInt8.toNat ∘ UInt8.ofNat) = Nat.digits 256 i := by
      conv_rhs => rw [← List.map_id (Nat.digits 256 i)]
      apply List.map_congr_left
      intro d inside
      have small := Nat.digits_lt_base (by norm_num) inside
      rw [Function.comp_apply, UInt8.toNat_ofNat', Nat.mod_eq_of_lt small, id]
    rw [List.reverse_reverse, List.map_map, digits, Nat.ofDigits_digits]

theorem importBits_zeros (z : ℕ) (bytes : List UInt8) :
    importBits (List.replicate z 0 ++ bytes) = importBits bytes := by
  unfold importBits
  rw [List.reverse_append, List.map_append, Nat.ofDigits_append, List.reverse_replicate,
    List.map_replicate, UInt8.toNat_zero, Nat.ofDigits_replicate_zero, Nat.mul_zero, Nat.add_zero]

theorem importBits_lt (bytes : List UInt8) : importBits bytes < 256 ^ bytes.length := by
  have bound := Nat.ofDigits_lt_base_pow_length (b := 256)
    (l := bytes.reverse.map UInt8.toNat) (by norm_num) fun d inside => by
      obtain ⟨v, -, rfl⟩ := List.mem_map.1 inside
      exact v.toNat_lt
  rwa [List.length_map, List.length_reverse] at bound

theorem length_exportBits {i : ℕ} (positive : i ≠ 0) :
    (exportBits i).length = Nat.log2 i / 8 + 1 := by
  rw [exportBits, if_neg positive, List.length_reverse, List.length_map,
    Nat.length_digits 256 i (by norm_num) positive, Nat.log2_eq_log_two]
  congr 1
  rw [show (256 : ℕ) = 2 ^ 8 by norm_num]
  apply eq_of_forall_le_iff
  intro k
  rw [Nat.le_log_iff_pow_le (by norm_num) positive, ← pow_mul,
    Nat.le_div_iff_mul_le (by norm_num), Nat.mul_comm k 8,
    Nat.le_log_iff_pow_le (by norm_num) positive]

theorem pow_le_of_length {i : ℕ} (positive : i ≠ 0) : 256 ^ ((exportBits i).length - 1) ≤ i := by
  rw [exportBits, if_neg positive, List.length_reverse, List.length_map,
    Nat.length_digits 256 i (by norm_num) positive, Nat.add_sub_cancel]
  exact Nat.pow_log_le_self 256 positive

end Digits

section Source

/-- `new_big(num_bits)`: cleared cells at the end of the heap, across blocks, with the header in
the first one. -/
def newBigCells (m : Memory) (num_bits : ℕ) : ℕ × Memory :=
  let num_bytes := (num_bits + 7) / 8
  let num_cells := if num_bytes ≤ 4 then 1 else 1 + (num_bytes - 4 + 7) / 8
  (m.size, { m with
    word := fun a => if a = m.size then bigHeader num_bits
      else if m.size < a ∧ a < m.size + num_cells then 0 else m.word a
    size := m.size + num_cells })

/-- `++bi`, as often as asked -/
def skip : BigIterator → ℕ → Memory → Option (BigIterator × Memory)
  | it, 0, m => some (it, m)
  | it, count + 1, m => do
    let (it, m) ← it.next m
    skip it count m

/-- The bytes to skip in front of the number, computed on 64-bit words from its highest bit. -/
def leadingBytes (nbits i : ℕ) : ℕ :=
  (BitVec.ofNat 64 nbits - BitVec.ofNat 64 ((Nat.log2 i + 7) / 8 * 8)).toNat / 8

/-- `set_big(big, i)` -/
def setBigNumber (m : Memory) (index i : ℕ) : Option Memory := do
  guard (index < m.size)
  let (header, m) ← m.read index 0
  let nbits := (⟨header⟩ : Cell).numBits
  let (it, m) ← begin m index
  let (it, m) ← if i ≠ 0 then skip it (leadingBytes nbits i) m else some (it, m)
  let (it, m) ← it.writeAll (exportBits i) m
  it.cellByte.flush m

/-- `new_big(i, nbits0)` -/
def newBig (m : Memory) (i nbits0 : ℕ) : Option (ℕ × Memory) := do
  let nbits := if nbits0 = 0 then (if i ≠ 0 then Nat.log2 i + 1 else 1) else nbits0
  let nbits := (nbits + 7) % 2 ^ 64 / 8 * 8
  let (index, m) := newBigCells m nbits
  let m ← setBigNumber m index i
  return (index, m)

/-- `get_big(big, i, nbits)` -/
def getBigNumber (m : Memory) (index : ℕ) : Option ((ℕ × ℕ) × Memory) := do
  guard (index < m.size)
  let (header, m) ← m.read index 0
  let nbits := (⟨header⟩ : Cell).numBits
  let (it, m) ← begin m index
  let (bytes, it, m) ← it.readAll ((nbits + 7) / 8) m
  let m ← it.cellByte.flush m
  return ((importBits bytes, nbits), m)

end Source

section Ends

variable {index n : ℕ} {it : BigIterator} {m : Memory}

/-- The cell after the bignum has a block, where the iterator loads it. -/
def Ends (m : Memory) (index n : ℕ) : Prop :=
  Overreads index n → m.HasBlock (index + (n + 4) / 8)

/-- A run of the iterator over `count` bytes, whatever it touches. -/
structure Passed (index n count : ℕ) (it : BigIterator) (m : Memory) (w : ℕ → Word)
    (it' : BigIterator) (m' : Memory) : Prop where
  at_ : At index n it'
  i_eq : it'.i = it.i + count
  view_eq : view it' m' = w
  size_eq : m'.size = m.size
  block : m'.HasBlock it'.cell

theorem passed_of_ran {count : ℕ} {w : ℕ → Word} {it' : BigIterator} {m' : Memory}
    (ran : Ran index n count it m w it' m') : Passed index n count it m w it' m' :=
  ⟨ran.at_, ran.i_eq, ran.view_eq, ran.size_eq, ran.block⟩

theorem Passed.trans {c₁ c₂ : ℕ} {w₁ w₂ : ℕ → Word} {it₁ it₂ : BigIterator} {m₁ m₂ : Memory}
    (first : Passed index n c₁ it m w₁ it₁ m₁) (second : Passed index n c₂ it₁ m₁ w₂ it₂ m₂) :
    Passed index n (c₁ + c₂) it m w₂ it₂ m₂ := by
  refine ⟨second.at_, ?_, second.view_eq, second.size_eq.trans first.size_eq, second.block⟩
  rw [second.i_eq, first.i_eq, Nat.add_assoc]

theorem next_end (at_ : At index n it) (last : it.i + 1 = n + 4)
    (fits : index + (n + 3) / 8 < m.size) (ends : Ends m index n) :
    ∃ it' m', it.next m = some (it', m') ∧ Passed index n 1 it m (view it m) it' m' := by
  have place := at_.place
  obtain ⟨it', m', moved, at', ran⟩ :=
    at_.next_some (at_.block (by omega) fits) fun loads => by
      have crossing := loads.1
      rw [show it.index + 1 = index + (n + 4) / 8 by omega]
      exact ends ((at_.loads_iff last).1 loads)
  exact ⟨it', m', moved, at', ran.i_eq, ran.view_eq, ran.size_eq, ran.block⟩

theorem next_end_none (at_ : At index n it) (last : it.i + 1 = n + 4)
    (fits : index + (n + 3) / 8 < m.size) (missing : ¬ Ends m index n) : it.next m = none := by
  have place := at_.place
  obtain ⟨spills, gone⟩ := Classical.not_imp.1 missing
  have loads := (at_.loads_iff last).2 spills
  have crossing := loads.1
  refine at_.next_none (at_.block (by omega) fits) loads ?_
  rwa [show it.index + 1 = index + (n + 4) / 8 by omega]

theorem readAll_end {count : ℕ} (at_ : At index n it) (some_ : 0 < count)
    (all : it.i + count = n + 4) (fits : index + (n + 3) / 8 < m.size) (fresh : Fresh it m)
    (ends : Ends m index n) :
    ∃ it' m', it.readAll count m =
        some (loadBytes (view it m) (8 * index + it.i) count, it', m') ∧
      Passed index n count it m (view it m) it' m' := by
  obtain ⟨k, rfl⟩ : ∃ k, count = k + 1 := ⟨count - 1, by omega⟩
  obtain ⟨it₁, m₁, readFront, ran₁, fresh₁⟩ := at_.readAll_inside k (by omega) fits fresh
  have i₁ := ran₁.i_eq
  obtain ⟨it₂, m₂, moved, passed⟩ := next_end ran₁.at_ (by omega) (by rw [ran₁.size_eq]; exact fits)
    (by unfold Ends Memory.HasBlock; rw [ran₁.size_eq]; exact ends)
  refine ⟨it₂, m₂, ?_, ?_⟩
  · rw [readAll_succ, readFront, loadBytes_append]
    simp only [Option.bind_some, moved, Option.map_some, ran₁.at_.get_eq fresh₁, ran₁.view_eq, i₁,
      loadBytes, Nat.add_assoc]
  · rw [ran₁.view_eq] at passed
    exact (passed_of_ran ran₁).trans passed

theorem readAll_end_none {count : ℕ} (at_ : At index n it) (some_ : 0 < count)
    (all : it.i + count = n + 4) (fits : index + (n + 3) / 8 < m.size) (fresh : Fresh it m)
    (missing : ¬ Ends m index n) : it.readAll count m = none := by
  obtain ⟨k, rfl⟩ : ∃ k, count = k + 1 := ⟨count - 1, by omega⟩
  obtain ⟨it₁, m₁, readFront, ran₁, -⟩ := at_.readAll_inside k (by omega) fits fresh
  have i₁ := ran₁.i_eq
  have missing₁ : ¬ Ends m₁ index n := by
    unfold Ends Memory.HasBlock
    rw [ran₁.size_eq]
    exact missing
  rw [readAll_succ, readFront, Option.bind_some,
    next_end_none ran₁.at_ (by omega) (by rw [ran₁.size_eq]; exact fits) missing₁]
  rfl

theorem writeAll_end {bytes : List UInt8} (at_ : At index n it) (some_ : bytes ≠ [])
    (all : it.i + bytes.length = n + 4) (fits : index + (n + 3) / 8 < m.size)
    (fresh : Fresh it m) (ends : Ends m index n) :
    ∃ it' m', it.writeAll bytes m = some (it', m') ∧
      Passed index n bytes.length it m (storeBytes (view it m) (8 * index + it.i) bytes)
        it' m' := by
  obtain ⟨front, v, rfl⟩ := bytes.eq_nil_or_concat'.resolve_left some_
  rw [List.length_append, List.length_singleton] at all
  obtain ⟨it₁, m₁, wrote, ran₁, fresh₁⟩ := at_.writeAll_inside front (by omega) fits fresh
  have i₁ := ran₁.i_eq
  obtain ⟨it₂, m₂, moved, passed⟩ := next_end (ran₁.at_.set v)
    (show it₁.i + 1 = n + 4 by omega) (by rw [ran₁.size_eq]; exact fits)
    (by unfold Ends Memory.HasBlock; rw [ran₁.size_eq]; exact ends)
  refine ⟨it₂, m₂, ?_, ?_⟩
  · rw [writeAll_append, wrote]
    simp only [Option.bind_some, BigIterator.writeAll, moved, Option.bind_eq_bind]
  · rw [storeBytes_append, List.length_append, List.length_singleton, Nat.add_assoc, ← i₁,
      ← ran₁.view_eq]
    rw [ran₁.at_.view_set fresh₁] at passed
    exact (passed_of_ran ran₁).trans
      ⟨passed.at_, passed.i_eq, passed.view_eq, passed.size_eq, passed.block⟩

theorem writeAll_end_none {bytes : List UInt8} (at_ : At index n it) (some_ : bytes ≠ [])
    (all : it.i + bytes.length = n + 4) (fits : index + (n + 3) / 8 < m.size)
    (fresh : Fresh it m) (missing : ¬ Ends m index n) : it.writeAll bytes m = none := by
  obtain ⟨front, v, rfl⟩ := bytes.eq_nil_or_concat'.resolve_left some_
  rw [List.length_append, List.length_singleton] at all
  obtain ⟨it₁, m₁, wrote, ran₁, -⟩ := at_.writeAll_inside front (by omega) fits fresh
  have i₁ := ran₁.i_eq
  have missing₁ : ¬ Ends m₁ index n := by
    unfold Ends Memory.HasBlock
    rw [ran₁.size_eq]
    exact missing
  have failed := next_end_none (ran₁.at_.set v) (show it₁.i + 1 = n + 4 by omega)
    (by rw [ran₁.size_eq]; exact fits) missing₁
  rw [writeAll_append, wrote]
  simp only [Option.bind_some, BigIterator.writeAll, failed, Option.bind_eq_bind,
    Option.bind_none]

theorem skip_of_readAll {count : ℕ} {bytes : List UInt8} {it' : BigIterator} {m' : Memory}
    (got : it.readAll count m = some (bytes, it', m')) : skip it count m = some (it', m') := by
  induction count generalizing it m bytes with
  | zero =>
    cases got
    rfl
  | succ count ih =>
    rw [readAll_cons] at got
    rw [skip]
    cases moved : it.next m with
    | none =>
      rw [moved] at got
      cases got
    | some r =>
      rw [moved, Option.bind_some] at got
      obtain ⟨s, readRest, same⟩ := Option.map_eq_some_iff.1 got
      obtain ⟨rfl, rfl⟩ := Prod.mk.inj (Prod.mk.inj same).2
      exact ih readRest

end Ends

section Drift

variable {index n : ℕ} {it : BigIterator} {m : Memory}

/-- The iterator holds the cell as it is, unless the bignum ends before that cell. -/
def Held (n : ℕ) (it : BigIterator) (m : Memory) : Prop := Fresh it m ∨ n + 4 ≤ 8 * (it.i / 8)

/-- What any run of the iterator keeps, also one that goes on behind the end: the bytes before
`p`. -/
structure Drifted (index n p : ℕ) (it : BigIterator) (m : Memory) (it' : BigIterator)
    (m' : Memory) : Prop where
  at_ : At index n it'
  held : Held n it' m'
  block : m'.HasBlock it'.cell
  size_eq : m'.size = m.size
  further : it.i ≤ it'.i
  kept : ∀ b < 8 * index + p, load (view it' m') b = load (view it m) b

theorem Drifted.trans {p : ℕ} {it₁ it₂ : BigIterator} {m₁ m₂ : Memory}
    (first : Drifted index n p it m it₁ m₁) (second : Drifted index n p it₁ m₁ it₂ m₂) :
    Drifted index n p it m it₂ m₂ :=
  ⟨second.at_, second.held, second.block, second.size_eq.trans first.size_eq,
    first.further.trans second.further,
    fun b below => (second.kept b below).trans (first.kept b below)⟩

theorem next_drift {it' : BigIterator} {m' : Memory} (at_ : At index n it)
    (block : m.HasBlock it.cell) (held : Held n it m) (moved : it.next m = some (it', m'))
    (p : ℕ) : Drifted index n p it m it' m' ∧ it'.i = it.i + 1 := by
  by_cases gone : Loads it ∧ ¬ m.HasBlock (it.index + 1)
  · rw [at_.next_none block gone.1 gone.2] at moved
    cases moved
  · obtain ⟨it'', m'', moved', at', ran⟩ := at_.next_some block fun loads =>
      not_not.1 fun missing => gone ⟨loads, missing⟩
    obtain ⟨rfl, rfl⟩ := Prod.mk.inj (Option.some.inj (moved.symm.trans moved'))
    have i_eq := ran.i_eq
    refine ⟨⟨at', ?_, ran.block, ran.size_eq, by omega, fun b _ => by rw [ran.view_eq]⟩, i_eq⟩
    unfold Held
    obtain fresh | behind := held
    · by_cases keeps : (it.i + 1) % 8 ≠ 0 ∨ Loads it
      · exact .inl (ran.fresh fresh keeps)
      · -- The iterator did not load the next cell, so the bignum ends with the held one.
        obtain ⟨crossing, idle⟩ := not_or.1 keeps
        have behind := at_.index_le
        have bound := at_.bound
        have last : ¬ it.cellByte.index + 1 < it.cellByte.n := fun more =>
          idle ⟨not_not.1 crossing, .inr more⟩
        refine .inr ?_
        omega
    · refine .inr ?_
      omega

theorem set_kept (at_ : At index n it) (held : Held n it m) (v : UInt8) {b : ℕ}
    (before : b < 8 * index + it.i) (inside : b < 8 * index + (n + 4)) :
    load (view (it.set v) m) b = load (view it m) b := by
  obtain fresh | behind := held
  · rw [at_.view_set fresh, load_store_ne _ (by omega)]
  · have apart : b / 8 ≠ it.cell := by
      have place := at_.place
      rw [at_.held]
      omega
    have dirty : (it.set v).cellByte.dirty = true := rfl
    have other : b / 8 ≠ (it.set v).cell := apart
    have same : view (it.set v) m (b / 8) = view it m (b / 8) := by
      unfold view
      rw [if_pos dirty, Function.update_of_ne other]
      split_ifs
      · rw [Function.update_of_ne apart]
      · rfl
    rw [load, load, same]

theorem writeAll_drift {bytes : List UInt8} {it' : BigIterator} {m' : Memory} {p : ℕ}
    (at_ : At index n it) (block : m.HasBlock it.cell) (held : Held n it m)
    (wrote : it.writeAll bytes m = some (it', m')) (before : p ≤ it.i) (inside : p ≤ n + 4) :
    Drifted index n p it m it' m' := by
  induction bytes generalizing it m with
  | nil =>
    cases wrote
    exact ⟨at_, held, block, rfl, le_refl _, fun _ _ => rfl⟩
  | cons v rest ih =>
    rw [BigIterator.writeAll] at wrote
    cases moved : (it.set v).next m with
    | none =>
      rw [moved] at wrote
      cases wrote
    | some r =>
      rw [moved] at wrote
      obtain ⟨first, i_eq⟩ := next_drift (at_.set v) block (.inl (fresh_set it m v)) moved p
      have i_eq' : r.1.i = it.i + 1 := i_eq
      have second := ih first.at_ first.block first.held wrote (by omega)
      have whole : Drifted index n p it m r.1 r.2 :=
        ⟨first.at_, first.held, first.block, first.size_eq, by omega, fun b below =>
          (first.kept b below).trans (set_kept at_ held v (by omega) (by omega))⟩
      exact whole.trans second

theorem skip_drift {count : ℕ} {it' : BigIterator} {m' : Memory} (at_ : At index n it)
    (block : m.HasBlock it.cell) (held : Held n it m) (skipped : skip it count m = some (it', m'))
    (p : ℕ) : Drifted index n p it m it' m' ∧ it'.i = it.i + count := by
  induction count generalizing it m with
  | zero =>
    cases skipped
    exact ⟨⟨at_, held, block, rfl, le_refl _, fun _ _ => rfl⟩, rfl⟩
  | succ count ih =>
    rw [skip] at skipped
    cases moved : it.next m with
    | none =>
      rw [moved] at skipped
      cases skipped
    | some r =>
      rw [moved] at skipped
      obtain ⟨first, i_eq⟩ := next_drift at_ block held moved p
      obtain ⟨second, i_eq'⟩ := ih first.at_ first.block first.held skipped
      exact ⟨first.trans second, by omega⟩

end Drift

section Access

variable {index n : ℕ} {m : Memory}

/-- The iterator at the first byte of a bignum. -/
structure Started (index n : ℕ) (m : Memory) (it : BigIterator) (m' : Memory) : Prop where
  at_ : At index n it
  i_eq : it.i = 4
  view_eq : view it m' = m.word
  size_eq : m'.size = m.size
  fresh : Fresh it m'
  block : m'.HasBlock it.cell

theorem started (inside : index < m.size) :
    ∃ m₀ it m₁, m.read index 0 = some (m.word index, m₀) ∧
      begin m₀ index = some (it, m₁) ∧ Started index (numBytes m index) m it m₁ := by
  have block := hasBlock_of_lt inside
  have low : index % BLOCK_SIZE + 0 < BLOCK_SIZE := Nat.mod_lt _ (by decide)
  obtain ⟨it, m₁, begun, began⟩ :=
    begin_eq (show Memory.HasBlock { m with touched := (index + 0) :: m.touched } index from block)
  exact ⟨_, it, m₁, read_eq block low, begun, began.at_, began.i_eq, began.view_eq,
    began.size_eq, began.fresh, began.block⟩

/-- The bytes are set behind the skipped ones. -/
def writtenAt (m : Memory) (index i : ℕ) : ℕ :=
  if i ≠ 0 then leadingBytes (numBits m index) i else 0

theorem setBigNumber_eq (inside : index < m.size) (i : ℕ) :
    ∃ it m₁, Started index (numBytes m index) m it m₁ ∧
      setBigNumber m index i = (skip it (writtenAt m index i) m₁).bind fun r =>
        (r.1.writeAll (exportBits i) r.2).bind fun s => s.1.cellByte.flush s.2 := by
  obtain ⟨m₀, it, m₁, header, begun, start⟩ := started inside
  refine ⟨it, m₁, start, ?_⟩
  simp only [setBigNumber, guard, inside, if_true, header, begun, Option.pure_def,
    Option.bind_eq_bind, Option.bind_some, writtenAt, numBits]
  split_ifs <;> rfl

theorem setBigNumber_some {i : ℕ} (fits : index + (n + 3) / 8 < m.size) (whole : n = numBytes m index)
    (room : writtenAt m index i + (exportBits i).length ≤ n) (ends : Ends m index n) :
    ∃ m', setBigNumber m index i = some m' ∧ m'.size = m.size ∧
      m'.word = storeBytes m.word (8 * index + (4 + writtenAt m index i)) (exportBits i) := by
  have inside : index < m.size := by omega
  have some_ : 0 < (exportBits i).length := by
    unfold exportBits
    split_ifs with zero
    · exact Nat.one_pos
    · rw [List.length_reverse, List.length_map]
      exact List.length_pos_iff.2 (Nat.digits_ne_nil_iff_ne_zero.2 zero)
  obtain ⟨it, m₁, start, eq⟩ := setBigNumber_eq inside i
  rw [← whole] at start
  have begun := start.i_eq
  obtain ⟨it₂, m₂, readFront, ran₂, fresh₂⟩ := start.at_.readAll_inside (writtenAt m index i)
    (by omega) (by rw [start.size_eq]; exact fits) start.fresh
  have i₂ := ran₂.i_eq
  have fits₂ : index + (n + 3) / 8 < m₂.size := by
    rw [ran₂.size_eq, start.size_eq]
    exact fits
  have wrote : ∃ it₃ m₃, it₂.writeAll (exportBits i) m₂ = some (it₃, m₃) ∧
      Passed index n (exportBits i).length it₂ m₂
        (storeBytes (view it₂ m₂) (8 * index + it₂.i) (exportBits i)) it₃ m₃ := by
    by_cases all : it₂.i + (exportBits i).length = n + 4
    · refine writeAll_end ran₂.at_ (List.ne_nil_of_length_pos some_) all fits₂ fresh₂ ?_
      unfold Ends Memory.HasBlock
      rw [ran₂.size_eq, start.size_eq]
      exact ends
    · obtain ⟨it₃, m₃, wrote, ran₃, -⟩ :=
        ran₂.at_.writeAll_inside (exportBits i) (by omega) fits₂ fresh₂
      exact ⟨it₃, m₃, wrote, passed_of_ran ran₃⟩
  obtain ⟨it₃, m₃, wrote, passed⟩ := wrote
  obtain ⟨m₄, flushed, word_eq, size_eq, -⟩ := passed.at_.flush_eq passed.block
  refine ⟨m₄, ?_, ?_, ?_⟩
  · rw [eq, skip_of_readAll readFront, Option.bind_some, wrote, Option.bind_some, flushed]
  · rw [size_eq, passed.size_eq, ran₂.size_eq, start.size_eq]
  · rw [word_eq, passed.view_eq, ran₂.view_eq, start.view_eq, i₂, begun]

theorem setBig_some {bytes : List UInt8} (fits : index + (bytes.length + 3) / 8 < m.size)
    (whole : bytes.length = numBytes m index) (some_ : bytes ≠ [])
    (ends : Ends m index bytes.length) :
    ∃ m', setBig m index bytes = some m' ∧ m'.size = m.size ∧
      m'.word = storeBytes m.word (8 * index + 4) bytes := by
  have inside : index < m.size := by omega
  obtain ⟨it, m₁, begun, start⟩ := begin_eq (hasBlock_of_lt inside)
  rw [← whole] at start
  obtain ⟨it₂, m₂, wrote, passed⟩ := writeAll_end start.at_ some_
    (by rw [start.i_eq, Nat.add_comm]) (by rw [start.size_eq]; exact fits) start.fresh
    (by unfold Ends Memory.HasBlock; rw [start.size_eq]; exact ends)
  obtain ⟨m₃, flushed, word_eq, size_eq, -⟩ := passed.at_.flush_eq passed.block
  refine ⟨m₃, ?_, ?_, ?_⟩
  · simp only [setBig, guard, inside, if_true, begun, wrote, flushed, Option.pure_def,
      Option.bind_eq_bind, Option.bind_some]
  · rw [size_eq, passed.size_eq, start.size_eq]
  · rw [word_eq, passed.view_eq, start.view_eq, start.i_eq]

theorem setBig_none {bytes : List UInt8} (fits : index + (bytes.length + 3) / 8 < m.size)
    (whole : bytes.length = numBytes m index) (some_ : bytes ≠ [])
    (missing : ¬ Ends m index bytes.length) : setBig m index bytes = none := by
  have inside : index < m.size := by omega
  obtain ⟨it, m₁, begun, start⟩ := begin_eq (hasBlock_of_lt inside)
  rw [← whole] at start
  have failed := writeAll_end_none start.at_ some_ (by rw [start.i_eq, Nat.add_comm])
    (by rw [start.size_eq]; exact fits) start.fresh
    (by unfold Ends Memory.HasBlock; rw [start.size_eq]; exact missing)
  simp only [setBig, guard, inside, if_true, begun, failed, Option.pure_def,
    Option.bind_eq_bind, Option.bind_some, Option.bind_none]

theorem setBigNumber_kept {i : ℕ} (inside : index < m.size) {m' : Memory}
    (set : setBigNumber m index i = some m') :
    m'.size = m.size ∧ ∀ b < 8 * index + 4 + min (writtenAt m index i) (numBytes m index),
      load m'.word b = load m.word b := by
  obtain ⟨it, m₁, start, eq⟩ := setBigNumber_eq inside i
  rw [eq] at set
  have begun := start.i_eq
  obtain ⟨⟨it₂, m₂⟩, skipped, set⟩ := Option.bind_eq_some_iff.1 set
  obtain ⟨⟨it₃, m₃⟩, wrote, flushed⟩ := Option.bind_eq_some_iff.1 set
  obtain ⟨first, i_eq⟩ := skip_drift start.at_ start.block (.inl start.fresh) skipped
    (4 + min (writtenAt m index i) (numBytes m index))
  have second := writeAll_drift (p := 4 + min (writtenAt m index i) (numBytes m index)) first.at_
    first.block first.held wrote (by omega) (by omega)
  have both := first.trans second
  obtain ⟨m₄, flushed', word_eq, size_eq, -⟩ := both.at_.flush_eq both.block
  obtain rfl := Option.some.inj (flushed.symm.trans flushed')
  refine ⟨size_eq.trans (both.size_eq.trans start.size_eq), fun b below => ?_⟩
  rw [word_eq, both.kept b (by omega), start.view_eq]

theorem getBigNumber_some (fits : index + (n + 3) / 8 < m.size) (whole : n = numBytes m index)
    (positive : 0 < n) (ends : Ends m index n) :
    ∃ m', getBigNumber m index =
        some ((importBits (loadBytes m.word (8 * index + 4) n), numBits m index), m') ∧
      m'.word = m.word := by
  have inside : index < m.size := by omega
  obtain ⟨m₀, it, m₁, header, begun, start⟩ := started inside
  rw [← whole] at start
  have begun4 := start.i_eq
  obtain ⟨it₂, m₂, readIt, passed⟩ := readAll_end start.at_ positive (by omega)
    (by rw [start.size_eq]; exact fits) start.fresh
    (by unfold Ends Memory.HasBlock; rw [start.size_eq]; exact ends)
  obtain ⟨m₃, flushed, word_eq, -⟩ := passed.at_.flush_eq passed.block
  refine ⟨m₃, ?_, by rw [word_eq, passed.view_eq, start.view_eq]⟩
  have count : ((⟨m.word index⟩ : Cell).numBits + 7) / 8 = n := whole.symm
  simp only [getBigNumber, guard, inside, if_true, header, begun, count, readIt, flushed,
    Option.pure_def, Option.bind_eq_bind, Option.bind_some, start.view_eq, begun4, numBits]

theorem getBigNumber_none (fits : index + (n + 3) / 8 < m.size) (whole : n = numBytes m index)
    (positive : 0 < n) (missing : ¬ Ends m index n) : getBigNumber m index = none := by
  have inside : index < m.size := by omega
  obtain ⟨m₀, it, m₁, header, begun, start⟩ := started inside
  rw [← whole] at start
  have begun4 := start.i_eq
  have missing₁ : ¬ Ends m₁ index n := by
    unfold Ends Memory.HasBlock
    rw [start.size_eq]
    exact missing
  have failed := readAll_end_none start.at_ positive (by omega)
    (by rw [start.size_eq]; exact fits) start.fresh missing₁
  have count : ((⟨m.word index⟩ : Cell).numBits + 7) / 8 = n := whole.symm
  simp only [getBigNumber, guard, inside, if_true, header, begun, count, failed,
    Option.pure_def, Option.bind_eq_bind, Option.bind_some, Option.bind_none]

theorem getBigNumber_bits {r : (ℕ × ℕ) × Memory} (got : getBigNumber m index = some r) :
    r.1.2 = numBits m index := by
  by_cases inside : index < m.size
  · obtain ⟨m₀, it, m₁, header, begun, start⟩ := started inside
    simp only [getBigNumber, guard, inside, if_true, header, begun, Option.pure_def,
      Option.bind_eq_bind, Option.bind_some] at got
    obtain ⟨s, -, got⟩ := Option.bind_eq_some_iff.1 got
    obtain ⟨m₂, -, got⟩ := Option.bind_eq_some_iff.1 got
    cases got
    rfl
  · simp only [getBigNumber, guard, inside, if_false, failure, Option.bind_eq_bind,
      Option.bind_none] at got
    cases got

end Access

section NewBig

variable {m : Memory} {i nbits0 : ℕ}

/-- The requested size in whole bytes -/
def wholeBits (nbits0 : ℕ) : ℕ := (nbits0 + 7) / 8 * 8

/-- A number is stored in a new bignum and read back with its size, and no other cell changes. -/
def Stored (m : Memory) (i nbits0 : ℕ) : Prop :=
  ∃ index m₁ m₂, newBig m i nbits0 = some (index, m₁) ∧
    getBigNumber m₁ index = some ((i, wholeBits nbits0), m₂) ∧
    ∀ a, a < index ∨ m₁.size ≤ a → m₁.word a = m.word a ∧ m₂.word a = m.word a

/-- What the encoding has room for: a size that the header can hold, a number whose highest bit is
not the lowest of its byte, and an end that is not the end of a block with the bytes filling the
last cell. -/
def Storable (size i nbits0 : ℕ) : Prop :=
  0 < nbits0 ∧ wholeBits nbits0 < 2 ^ 29 ∧ (i = 0 ∨ Nat.log2 i % 8 ≠ 0) ∧
    ¬ (wholeBits nbits0 / 8 % 8 = 4 ∧
      (size + (wholeBits nbits0 / 8 + 4) / 8) % BLOCK_SIZE = 0)

theorem newBigCells_size (m : Memory) (bytes : ℕ) :
    (newBigCells m (8 * bytes)).2.size = m.size + ((bytes + 3) / 8 + 1) := by
  simp only [newBigCells]
  split_ifs <;> omega

theorem numBits_newBigCells (m : Memory) (num_bits : ℕ) :
    numBits (newBigCells m num_bits).2 m.size = num_bits % 2 ^ 29 := by
  simp only [numBits, newBigCells, if_pos, bigHeader, Cell.numBits]
  change (Cell.make .DAT num_bits).value % 2 ^ 29 = _
  rw [Cell.value_make]
  omega

theorem numBytes_newBigCells (m : Memory) {bytes : ℕ} (short : 8 * bytes < 2 ^ 29) :
    numBytes (newBigCells m (8 * bytes)).2 m.size = bytes := by
  rw [numBytes, numBits_newBigCells, Nat.mod_eq_of_lt short]
  omega

theorem load_newBigCells (m : Memory) {bytes j : ℕ} (short : 8 * bytes < 2 ^ 29)
    (inside : j < bytes) :
    load (newBigCells m (8 * bytes)).2.word (8 * m.size + 4 + j) = 0 := by
  rw [load]
  by_cases first : (8 * m.size + 4 + j) / 8 = m.size
  · have lane : (8 * m.size + 4 + j) % 8 = 4 + j := by omega
    have header : (newBigCells m (8 * bytes)).2.word m.size = bigHeader (8 * bytes) := by
      simp only [newBigCells, if_pos]
    have low : (bigHeader (8 * bytes)).toNat < 2 ^ 32 := by
      change (Cell.make .DAT (8 * bytes)).raw.toNat < 2 ^ 32
      simp only [Cell.make, BitVec.toNat_ofNat, Tag.code]
      omega
    rw [first, lane, header]
    apply UInt8.eq_of_toBitVec_eq
    apply BitVec.eq_of_getLsbD_eq
    intro k hk
    rw [getLsbD_getByte _ _ hk]
    have zero : (bigHeader (8 * bytes)).getLsbD (8 * (4 + j) + k) = false := by
      rw [BitVec.getLsbD]
      exact Nat.testBit_lt_two_pow
        (lt_of_lt_of_le low (Nat.pow_le_pow_right (by norm_num) (by omega)))
    rw [zero]
    exact (BitVec.getLsbD_zero).symm
  · have cleared : (newBigCells m (8 * bytes)).2.word ((8 * m.size + 4 + j) / 8) = 0 := by
      simp only [newBigCells, if_neg first]
      rw [if_pos]
      split_ifs <;> omega
    rw [cleared, getByte_zero]

theorem newBigCells_outside (m : Memory) {bytes a : ℕ}
    (outside : a < m.size ∨ m.size + ((bytes + 3) / 8 + 1) ≤ a) :
    (newBigCells m (8 * bytes)).2.word a = m.word a := by
  simp only [newBigCells]
  rw [if_neg (by omega), if_neg]
  split_ifs <;> omega

/-- The size that `new_big` allocates -/
def allocatedBits (i nbits0 : ℕ) : ℕ :=
  ((if nbits0 = 0 then (if i ≠ 0 then Nat.log2 i + 1 else 1) else nbits0) + 7) % 2 ^ 64 / 8

theorem newBig_eq (m : Memory) (i nbits0 : ℕ) :
    newBig m i nbits0 =
      (setBigNumber (newBigCells m (8 * allocatedBits i nbits0)).2 m.size i).map
        (Prod.mk m.size) := by
  rw [Nat.mul_comm, Option.map_eq_bind]
  rfl

theorem leadingBytes_eq {bytes : ℕ} (short : 8 * bytes < 2 ^ 29)
    (room : (Nat.log2 i + 7) / 8 ≤ bytes) :
    leadingBytes (8 * bytes) i = bytes - (Nat.log2 i + 7) / 8 := by
  have le : BitVec.ofNat 64 ((Nat.log2 i + 7) / 8 * 8) ≤ BitVec.ofNat 64 (8 * bytes) := by
    rw [BitVec.le_def, BitVec.toNat_ofNat, BitVec.toNat_ofNat, Nat.mod_eq_of_lt (by omega),
      Nat.mod_eq_of_lt (by omega)]
    omega
  rw [leadingBytes, BitVec.toNat_sub_of_le le, BitVec.toNat_ofNat, BitVec.toNat_ofNat,
    Nat.mod_eq_of_lt (by omega), Nat.mod_eq_of_lt (by omega)]
  omega

theorem allocatedBits_eq (i : ℕ) (positive : 0 < nbits0) (short : wholeBits nbits0 < 2 ^ 29) :
    allocatedBits i nbits0 = wholeBits nbits0 / 8 := by
  unfold allocatedBits wholeBits at *
  rw [if_neg (by omega)]
  omega

theorem ends_newBigCells (m : Memory) (bytes : ℕ) :
    Ends (newBigCells m (8 * bytes)).2 m.size bytes ↔
      ¬ (bytes % 8 = 4 ∧ (m.size + (bytes + 4) / 8) % BLOCK_SIZE = 0) := by
  unfold Ends Overreads Memory.HasBlock
  rw [newBigCells_size]
  unfold BLOCK_SIZE
  omega

theorem numBits_of_kept {m' : Memory} {index : ℕ}
    (kept : ∀ b < 8 * index + 4, load m'.word b = load m.word b) :
    numBits m' index = numBits m index := by
  refine numBits_congr (eq_of_getByte (k := 4) fun lane low => ?_)
  have same := kept (8 * index + lane) (by omega)
  rwa [load, load, show (8 * index + lane) / 8 = index by omega,
    show (8 * index + lane) % 8 = lane by omega] at same

theorem length_le_of_lt {i nbits0 : ℕ} (long : i < 2 ^ nbits0) (positive : i ≠ 0) :
    Nat.log2 i / 8 + 1 ≤ wholeBits nbits0 / 8 := by
  have top : Nat.log2 i < nbits0 := (Nat.log2_lt positive).2 long
  unfold wholeBits
  omega

theorem readBack_lt {bytes : ℕ} {m₁ : Memory} (short : 8 * bytes < 2 ^ 29) (positive : i ≠ 0)
    (lowest : Nat.log2 i % 8 = 0) (room : Nat.log2 i / 8 + 1 ≤ bytes)
    (kept : ∀ b < 8 * m.size + 4 + min (writtenAt (newBigCells m (8 * bytes)).2 m.size i) bytes,
      load m₁.word b = load (newBigCells m (8 * bytes)).2.word b) :
    importBits (loadBytes m₁.word (8 * m.size + 4) bytes) < i := by
  have length := length_exportBits positive
  have place : writtenAt (newBigCells m (8 * bytes)).2 m.size i = bytes - Nat.log2 i / 8 := by
    rw [writtenAt, if_pos positive, numBits_newBigCells, Nat.mod_eq_of_lt short,
      leadingBytes_eq short (by omega)]
    omega
  rw [place] at kept
  have zeros : loadBytes m₁.word (8 * m.size + 4) (bytes - Nat.log2 i / 8) =
      List.replicate (bytes - Nat.log2 i / 8) 0 := by
    refine loadBytes_zero _ fun j less => ?_
    rw [kept _ (by omega)]
    exact load_newBigCells m short (by omega)
  rw [show bytes = bytes - Nat.log2 i / 8 + Nat.log2 i / 8 by omega, loadBytes_append, zeros,
    importBits_zeros]
  refine lt_of_lt_of_le (importBits_lt _) ?_
  have power := pow_le_of_length positive
  rwa [length, Nat.add_sub_cancel, ← length_loadBytes m₁.word
    (8 * m.size + 4 + (bytes - Nat.log2 i / 8)) (Nat.log2 i / 8)] at power

theorem storable_of_stored (long : i < 2 ^ nbits0) (stored : Stored m i nbits0) :
    Storable m.size i nbits0 := by
  obtain ⟨index, m₁, m₂, made, got, -⟩ := stored
  rw [newBig_eq] at made
  obtain ⟨m₁', set, same⟩ := Option.map_eq_some_iff.1 made
  obtain ⟨rfl, rfl⟩ := Prod.mk.inj same
  have size₀ := newBigCells_size m (allocatedBits i nbits0)
  obtain ⟨size₁, kept⟩ := setBigNumber_kept (by omega) set
  have bits : numBits m₁' m.size = 8 * allocatedBits i nbits0 % 2 ^ 29 := by
    rw [numBits_of_kept fun b below => kept b (by omega), numBits_newBigCells]
  have size_eq : wholeBits nbits0 = numBits m₁' m.size := getBigNumber_bits got
  have short : wholeBits nbits0 < 2 ^ 29 := by omega
  have positive : 0 < nbits0 := by
    by_contra zero
    obtain rfl : nbits0 = 0 := by omega
    obtain rfl : i = 0 := by simpa using long
    rw [size_eq, bits] at short
    have eight : 8 * allocatedBits 0 0 % 2 ^ 29 = 8 := by decide
    rw [bits, eight] at size_eq
    exact absurd size_eq (by decide)
  have bytes_eq := allocatedBits_eq i positive short
  have whole8 : 8 * (wholeBits nbits0 / 8) = wholeBits nbits0 := by
    unfold wholeBits
    omega
  have some_ : 0 < wholeBits nbits0 / 8 := by
    unfold wholeBits
    omega
  rw [bytes_eq] at set size₀ size₁ kept
  have fits : m.size + (wholeBits nbits0 / 8 + 3) / 8 < m₁'.size := by omega
  have whole : wholeBits nbits0 / 8 = numBytes m₁' m.size := by
    rw [numBytes, ← size_eq]
    omega
  have ends : Ends m₁' m.size (wholeBits nbits0 / 8) := by
    by_contra missing
    rw [getBigNumber_none fits whole some_ missing] at got
    cases got
  refine ⟨positive, short, ?_, ?_⟩
  · by_contra wrong
    obtain ⟨nonzero, lowest⟩ := not_or.1 wrong
    obtain ⟨m₃, got', -⟩ := getBigNumber_some fits whole some_ ends
    rw [got] at got'
    have value := congrArg (fun r : Option ((ℕ × ℕ) × Memory) => r.map fun s => s.1.1) got'
    have value' : i = importBits (loadBytes m₁'.word (8 * m.size + 4) (wholeBits nbits0 / 8)) :=
      Option.some.inj value
    rw [numBytes_newBigCells m (by omega)] at kept
    have less := readBack_lt (m := m) (by omega) nonzero (not_not.1 lowest)
      (length_le_of_lt long nonzero) kept
    omega
  · rw [← ends_newBigCells]
    unfold Ends Memory.HasBlock at *
    rw [size₁] at ends
    exact ends

theorem length_exportBits_zero : (exportBits 0).length = 1 := rfl

theorem writtenAt_room (long : i < 2 ^ nbits0) (positive : 0 < nbits0)
    (short : wholeBits nbits0 < 2 ^ 29) (highest : i = 0 ∨ Nat.log2 i % 8 ≠ 0) :
    writtenAt (newBigCells m (8 * (wholeBits nbits0 / 8))).2 m.size i +
        (exportBits i).length ≤ wholeBits nbits0 / 8 ∧
      (i ≠ 0 → writtenAt (newBigCells m (8 * (wholeBits nbits0 / 8))).2 m.size i +
        (exportBits i).length = wholeBits nbits0 / 8) := by
  by_cases zero : i = 0
  · subst zero
    rw [writtenAt, if_neg (by simp), length_exportBits_zero]
    refine ⟨?_, fun nonzero => absurd rfl nonzero⟩
    unfold wholeBits
    omega
  · have top := highest.resolve_left zero
    have room := length_le_of_lt long zero
    have short8 : 8 * (wholeBits nbits0 / 8) < 2 ^ 29 := by omega
    have whole : writtenAt (newBigCells m (8 * (wholeBits nbits0 / 8))).2 m.size i +
        (exportBits i).length = wholeBits nbits0 / 8 := by
      rw [writtenAt, if_pos zero, numBits_newBigCells, Nat.mod_eq_of_lt short8,
        leadingBytes_eq short8 (by omega), length_exportBits zero]
      omega
    exact ⟨whole.le, fun _ => whole⟩

theorem readBack_eq {bytes place : ℕ} {w : ℕ → Word} {a : ℕ}
    (cleared : ∀ j < bytes, load w (a + j) = 0)
    (room : place + (exportBits i).length ≤ bytes)
    (exact_ : i ≠ 0 → place + (exportBits i).length = bytes) :
    importBits (loadBytes (storeBytes w (a + place) (exportBits i)) a bytes) = i := by
  have front : loadBytes (storeBytes w (a + place) (exportBits i)) a place =
      List.replicate place 0 := by
    refine loadBytes_zero _ fun j less => ?_
    rw [load_storeBytes_of_lt _ (by omega)]
    exact cleared j (by omega)
  by_cases zero : i = 0
  · subst zero
    have all : loadBytes (storeBytes w (a + place) (exportBits 0)) a bytes =
        List.replicate bytes 0 ++ [] := by
      rw [List.append_nil]
      refine loadBytes_zero _ fun j less => ?_
      change load (store w (a + place) 0) (a + j) = 0
      by_cases same : a + j = a + place
      · rw [same, load_store]
      · rw [load_store_ne _ same]
        exact cleared j less
    rw [all, importBits_zeros]
    rfl
  · rw [← exact_ zero, loadBytes_append, front, importBits_zeros, loadBytes_storeBytes,
      importBits_exportBits]

theorem stored_of_storable (long : i < 2 ^ nbits0) (storable : Storable m.size i nbits0) :
    Stored m i nbits0 := by
  obtain ⟨positive, short, highest, noEnd⟩ := storable
  have bytes_eq := allocatedBits_eq i positive short
  have whole8 : 8 * (wholeBits nbits0 / 8) = wholeBits nbits0 := by
    unfold wholeBits
    omega
  have some_ : 0 < wholeBits nbits0 / 8 := by
    unfold wholeBits
    omega
  have size₀ := newBigCells_size m (wholeBits nbits0 / 8)
  have short8 : 8 * (wholeBits nbits0 / 8) < 2 ^ 29 := by omega
  have ends := (ends_newBigCells m (wholeBits nbits0 / 8)).2 noEnd
  obtain ⟨room, exact_⟩ := writtenAt_room (m := m) long positive short highest
  obtain ⟨m₁, set, size₁, word₁⟩ := setBigNumber_some (by omega)
    (numBytes_newBigCells m short8).symm room ends
  have bits : numBits m₁ m.size = wholeBits nbits0 := by
    have kept := (setBigNumber_kept (by omega) set).2
    rw [numBits_of_kept fun b below => kept b (by omega), numBits_newBigCells,
      Nat.mod_eq_of_lt short8, whole8]
  obtain ⟨m₂, got, word₂⟩ := getBigNumber_some
    (show m.size + (wholeBits nbits0 / 8 + 3) / 8 < m₁.size by omega)
    (show wholeBits nbits0 / 8 = numBytes m₁ m.size by rw [numBytes, bits]; omega) some_
    (by unfold Ends Memory.HasBlock at *; rw [size₁]; exact ends)
  have value : importBits (loadBytes m₁.word (8 * m.size + 4) (wholeBits nbits0 / 8)) = i := by
    rw [word₁, ← Nat.add_assoc]
    exact readBack_eq (fun j less => load_newBigCells m short8 less) room exact_
  refine ⟨m.size, m₁, m₂, ?_, ?_, ?_⟩
  · rw [newBig_eq, bytes_eq, set, Option.map_some]
  · rw [got, value, bits]
  · intro a outside
    rw [word₂, and_self, word₁, storeBytes_of_not_mem _ fun j less => by omega]
    exact newBigCells_outside m (by omega)

/-- Every number that fits into the requested size is stored and read back just when the bignum is
storable. -/
theorem stored_iff (m : Memory) {i nbits0 : ℕ} (long : i < 2 ^ nbits0) :
    Stored m i nbits0 ↔ Storable m.size i nbits0 :=
  ⟨storable_of_stored long, stored_of_storable long⟩

def emptyHeap : Memory := ⟨fun _ => 0, 0, []⟩

theorem stored_1000 : Stored emptyHeap 1000 64 := by
  refine (stored_iff emptyHeap (by norm_num)).2 ⟨by norm_num, by norm_num [wholeBits], .inr ?_, ?_⟩
  · decide
  · decide

/-- 256 is stored with its top byte as the last one, and the byte after it is behind the end. -/
theorem lost_256 : ¬ ∀ (m : Memory) (i nbits0 : ℕ), i < 2 ^ nbits0 → Stored m i nbits0 := by
  intro always
  have storable := storable_of_stored (by norm_num) (always emptyHeap 256 16 (by norm_num))
  exact absurd storable.2.2.1 (by decide)

end NewBig

end Epilog.Common.BigNumbers
