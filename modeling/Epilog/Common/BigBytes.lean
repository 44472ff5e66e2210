/- Module: Epilog/Common/BigBytes
   source: src/src/common/term.hpp, src/src/common/term.cpp (cell_byte, big_iterator, set_big,
     get_big)
   digest: The bytes of a bignum, written and read through an iterator that holds one cell. -/

import Epilog.Common.Heap
import Epilog.Lib.ByteLanes

set_option autoImplicit false

namespace Epilog.Common.BigBytes

open Epilog.Common.Term Epilog.Common.Heap Epilog.Lib.ByteLanes

section Source

/-- The cells of a heap as `untagged_cell`, with the addresses read or written so far. -/
structure Memory where
  word : ℕ → Word
  size : ℕ
  touched : List ℕ

/-- `find_block`: the blocks reach up to the end of the block of the last cell. -/
def Memory.HasBlock (m : Memory) (addr : ℕ) : Prop :=
  addr / BLOCK_SIZE < (m.size + BLOCK_SIZE - 1) / BLOCK_SIZE

instance (m : Memory) (addr : ℕ) : Decidable (m.HasBlock addr) :=
  inferInstanceAs (Decidable (_ < _))

/-- `base[k]`, a place in the block of `base` -/
def slot (m : Memory) (base k : ℕ) : Option ℕ :=
  if m.HasBlock base ∧ base % BLOCK_SIZE + k < BLOCK_SIZE then some (base + k) else none

def Memory.read (m : Memory) (base k : ℕ) : Option (Word × Memory) := do
  let addr ← slot m base k
  return (m.word addr, { m with touched := addr :: m.touched })

def Memory.write (m : Memory) (base k : ℕ) (w : Word) : Option Memory := do
  let addr ← slot m base k
  return { m with word := Function.update m.word addr w, touched := addr :: m.touched }

structure CellByte where
  base : ℕ
  index : ℕ
  n : ℕ
  cached : Word
  dirty : Bool

namespace CellByte

/-- `cell_byte(base, i, n)` -/
def new (base i n : ℕ) (m : Memory) : Option (CellByte × Memory) := do
  let (cached, m) ← m.read base 0
  return ({ base, index := i, n, cached, dirty := false }, m)

/-- `set_byte` at the index -/
def set (cb : CellByte) (v : UInt8) : CellByte :=
  { cb with cached := setByte cb.cached (cb.index % 8) v, dirty := true }

/-- `get_byte` at the index -/
def get (cb : CellByte) : UInt8 := getByte cb.cached (cb.index % 8)

/-- The cached cell is written back when it was changed. -/
def flush (cb : CellByte) (m : Memory) : Option Memory :=
  if cb.dirty then m.write cb.base (cb.index / 8) cb.cached else some m

def setAddress (cb : CellByte) (base index : ℕ) (m : Memory) : Option (CellByte × Memory) := do
  let m ← cb.flush m
  let (cached, m) ← m.read base 0
  return ({ cb with base, index, cached, dirty := false }, m)

/-- `operator ++` -/
def next (cb : CellByte) (m : Memory) : Option (CellByte × Memory) :=
  if (cb.index + 1) % 8 = 0 then do
    let m ← cb.flush m
    if cb.index + 1 < cb.n then
      let (cached, m) ← m.read cb.base ((cb.index + 1) / 8)
      return ({ cb with index := cb.index + 1, cached, dirty := false }, m)
    else return ({ cb with index := cb.index + 1, dirty := false }, m)
  else some ({ cb with index := cb.index + 1 }, m)

end CellByte

structure BigIterator where
  index : ℕ
  i : ℕ
  cellByte : CellByte

namespace BigIterator

/-- `big_iterator(heap, index, num)` -/
def new (index num : ℕ) (m : Memory) : Option (BigIterator × Memory) := do
  let (cellByte, m) ← CellByte.new index 4 (num + 4) m
  return ({ index, i := 4, cellByte }, m)

/-- `operator ++`: at a block boundary the iterator takes a new base address. -/
def next (it : BigIterator) (m : Memory) : Option (BigIterator × Memory) :=
  if (it.i + 1) % 8 = 0 ∧ (it.index + 1) % BLOCK_SIZE = 0 then do
    let (cellByte, m) ← it.cellByte.setAddress (it.index + 1) 0 m
    return ({ index := it.index + 1, i := it.i + 1, cellByte }, m)
  else do
    let (cellByte, m) ← it.cellByte.next m
    return ({ index := if (it.i + 1) % 8 = 0 then it.index + 1 else it.index, i := it.i + 1,
              cellByte }, m)

/-- `*it = v` -/
def set (it : BigIterator) (v : UInt8) : BigIterator := { it with cellByte := it.cellByte.set v }

/-- `*it = v; ++it` for each byte -/
def writeAll : BigIterator → List UInt8 → Memory → Option (BigIterator × Memory)
  | it, [], m => some (it, m)
  | it, v :: rest, m => do
    let (it, m) ← (it.set v).next m
    writeAll it rest m

/-- `bytes[i] = *it; ++it`, as often as asked -/
def readAll : BigIterator → ℕ → Memory → Option (List UInt8 × BigIterator × Memory)
  | it, 0, m => some ([], it, m)
  | it, count + 1, m => do
    let (it', m) ← it.next m
    let (bytes, last, m) ← readAll it' count m
    return (it.cellByte.get :: bytes, last, m)

end BigIterator

/-- `num_bits` of the header at an address -/
def numBits (m : Memory) (index : ℕ) : ℕ := (⟨m.word index⟩ : Cell).numBits

def numBytes (m : Memory) (index : ℕ) : ℕ := (numBits m index + 7) / 8

def numCells (m : Memory) (index : ℕ) : ℕ := (⟨m.word index⟩ : Cell).numCells

/-- `begin`: the header is read for the number of bytes. -/
def begin (m : Memory) (index : ℕ) : Option (BigIterator × Memory) := do
  let (header, m) ← m.read index 0
  BigIterator.new index (((⟨header⟩ : Cell).numBits + 7) / 8) m

/-- `set_big(big, bytes, n)` of a bignum at `index`; the iterator writes its cell back in the
end. -/
def setBig (m : Memory) (index : ℕ) (bytes : List UInt8) : Option Memory := do
  guard (index < m.size)
  let (it, m) ← begin m index
  let (it, m) ← it.writeAll bytes m
  it.cellByte.flush m

/-- `get_big(big, bytes, n)`; the second check is made on 64-bit words. -/
def getBig (m : Memory) (index n : ℕ) : Option (List UInt8 × Memory) := do
  guard (index < m.size)
  guard ((BitVec.ofNat 64 (index + (n + 7) / 8) - 1).toNat < m.size)
  let (it, m) ← begin m index
  let (bytes, it, m) ← it.readAll n m
  let m ← it.cellByte.flush m
  return (bytes, m)

end Source

section Positions

def BigIterator.cell (it : BigIterator) : ℕ := it.cellByte.base + it.cellByte.index / 8

/-- The words of the memory once the iterator has written its cell back. -/
def view (it : BigIterator) (m : Memory) : ℕ → Word :=
  if it.cellByte.dirty then Function.update m.word it.cell it.cellByte.cached else m.word

def Fresh (it : BigIterator) (m : Memory) : Prop := it.cellByte.cached = view it m it.cell

/-- The iterator stands in the bignum of `n` bytes at `index`; it counts from the first cell, or
from the start of the block where it is now. -/
structure At (index n : ℕ) (it : BigIterator) : Prop where
  place : it.index = index + it.i / 8
  held : it.cell = it.index
  lane : it.cellByte.index % 8 = it.i % 8
  inBlock : it.cellByte.base % BLOCK_SIZE + it.cellByte.index / 8 < BLOCK_SIZE
  bound : it.cellByte.n = n + 4
  counts : it.cellByte.base = index ∧ it.cellByte.index = it.i ∨
    index < it.cellByte.base ∧ it.cellByte.base % BLOCK_SIZE = 0

/-- The step to the next byte loads the next cell. -/
def Loads (it : BigIterator) : Prop :=
  (it.i + 1) % 8 = 0 ∧
    ((it.index + 1) % BLOCK_SIZE = 0 ∨ it.cellByte.index + 1 < it.cellByte.n)

/-- What one step leaves as it was, and what it touches. -/
structure Moved (it : BigIterator) (m : Memory) (it' : BigIterator) (m' : Memory) : Prop where
  i_eq : it'.i = it.i + 1
  view_eq : view it' m' = view it m
  size_eq : m'.size = m.size
  touches : ∀ a ∈ m'.touched, a ∈ m.touched ∨ a = it.cell ∨ Loads it ∧ a = it.index + 1
  grows : ∀ a ∈ m.touched, a ∈ m'.touched
  loaded : Loads it → it.index + 1 ∈ m'.touched
  fresh : Fresh it m → (it.i + 1) % 8 ≠ 0 ∨ Loads it → Fresh it' m'
  clean : (it.i + 1) % 8 = 0 → it'.cellByte.dirty = false
  block : m'.HasBlock it'.cell

end Positions

section Steps

variable {index n : ℕ} {it : BigIterator} {m : Memory}

theorem slot_some {base k : ℕ} (block : m.HasBlock base)
    (inside : base % BLOCK_SIZE + k < BLOCK_SIZE) : slot m base k = some (base + k) :=
  if_pos ⟨block, inside⟩

theorem slot_zero_none {addr : ℕ} (missing : ¬ m.HasBlock addr) : slot m addr 0 = none :=
  if_neg fun found => missing found.1

theorem read_eq {base k : ℕ} (block : m.HasBlock base)
    (inside : base % BLOCK_SIZE + k < BLOCK_SIZE) :
    m.read base k =
      some (m.word (base + k), { m with touched := (base + k) :: m.touched }) := by
  rw [Memory.read, slot_some block inside]
  rfl

theorem write_eq {base k : ℕ} (block : m.HasBlock base)
    (inside : base % BLOCK_SIZE + k < BLOCK_SIZE) (w : Word) :
    m.write base k w = some { m with
      word := Function.update m.word (base + k) w, touched := (base + k) :: m.touched } := by
  rw [Memory.write, slot_some block inside]
  rfl

theorem hasBlock_of_le {a b : ℕ} (block : m.HasBlock a)
    (before : b / BLOCK_SIZE ≤ a / BLOCK_SIZE) : m.HasBlock b :=
  lt_of_le_of_lt before block

theorem hasBlock_of_lt {a : ℕ} (inside : a < m.size) : m.HasBlock a := by
  unfold Memory.HasBlock BLOCK_SIZE
  omega

theorem At.base_block (at_ : At index n it) (block : m.HasBlock it.cell) :
    m.HasBlock it.cellByte.base := by
  refine hasBlock_of_le block ?_
  have inBlock := at_.inBlock
  unfold BigIterator.cell
  unfold BLOCK_SIZE at *
  omega

theorem At.flush_eq (at_ : At index n it) (block : m.HasBlock it.cell) :
    ∃ m', it.cellByte.flush m = some m' ∧ m'.word = view it m ∧ m'.size = m.size ∧
      (∀ a ∈ m'.touched, a ∈ m.touched ∨ a = it.cell) ∧ ∀ a ∈ m.touched, a ∈ m'.touched := by
  unfold CellByte.flush view
  split_ifs with dirty
  · refine ⟨_, write_eq (at_.base_block block) at_.inBlock _, rfl, rfl, ?_, ?_⟩
    · intro a inside
      exact (List.mem_cons.1 inside).symm
    · exact fun a inside => List.mem_cons_of_mem _ inside
  · exact ⟨m, rfl, rfl, rfl, fun a inside => .inl inside, fun a inside => inside⟩

theorem At.next_none (at_ : At index n it) (block : m.HasBlock it.cell) (loads : Loads it)
    (missing : ¬ m.HasBlock (it.index + 1)) : it.next m = none := by
  have boundary : (it.index + 1) % BLOCK_SIZE = 0 := by
    by_contra inside
    apply missing
    rw [at_.held] at block
    refine hasBlock_of_le block ?_
    unfold BLOCK_SIZE at *
    omega
  obtain ⟨m₁, flushed, -, size_eq, -⟩ := at_.flush_eq block
  have missing₁ : ¬ m₁.HasBlock (it.index + 1) := by
    rw [Memory.HasBlock, size_eq]
    exact missing
  rw [BigIterator.next, if_pos ⟨loads.1, boundary⟩, CellByte.setAddress, flushed]
  simp only [Option.bind_eq_bind, Option.bind_some, Memory.read, slot_zero_none missing₁,
    Option.bind_none]

theorem At.next_some (at_ : At index n it) (block : m.HasBlock it.cell)
    (exists_ : Loads it → m.HasBlock (it.index + 1)) :
    ∃ it' m', it.next m = some (it', m') ∧ At index n it' ∧ Moved it m it' m' := by
  obtain ⟨place, held, lane, inBlock, bound, counts⟩ := at_
  have whole : At index n it := ⟨place, held, lane, inBlock, bound, counts⟩
  have cellEq : it.cellByte.base + it.cellByte.index / 8 = it.index := held
  by_cases crossing : (it.i + 1) % 8 = 0
  · have crossing' : (it.cellByte.index + 1) % 8 = 0 := by omega
    obtain ⟨m₁, flushed, word_eq, size_eq, touches, grows⟩ := whole.flush_eq block
    by_cases boundary : (it.index + 1) % BLOCK_SIZE = 0
    · have loads : Loads it := ⟨crossing, .inl boundary⟩
      have block₁ : m₁.HasBlock (it.index + 1) := by
        rw [Memory.HasBlock, size_eq]
        exact exists_ loads
      have loaded := read_eq (k := 0) block₁ (by rw [boundary]; decide)
      rw [BigIterator.next, if_pos ⟨crossing, boundary⟩, CellByte.setAddress, flushed]
      simp only [Option.bind_eq_bind, Option.bind_some, loaded]
      refine ⟨_, _, rfl, ⟨?_, ?_, ?_, ?_, bound, ?_⟩, ⟨rfl, word_eq, size_eq, ?_, ?_, ?_, ?_,
        fun _ => rfl, ?_⟩⟩
      · dsimp only
        omega
      · dsimp only [BigIterator.cell]
      · dsimp only
        omega
      · dsimp only
        rw [boundary]
        decide
      · refine .inr ⟨?_, boundary⟩
        dsimp only
        omega
      · intro a inside
        obtain rfl | inside := List.mem_cons.1 inside
        · exact .inr (.inr ⟨loads, rfl⟩)
        · exact (touches a inside).imp id .inl
      · exact fun a inside => List.mem_cons_of_mem _ (grows a inside)
      · exact fun _ => List.mem_cons_self
      · intro _ _
        simp [Fresh, view, BigIterator.cell]
      · dsimp only [BigIterator.cell]
        exact block₁
    · have notBoundary : ¬ ((it.i + 1) % 8 = 0 ∧ (it.index + 1) % BLOCK_SIZE = 0) :=
        fun both => boundary both.2
      have slot₁ : it.cellByte.base % BLOCK_SIZE + (it.cellByte.index + 1) / 8 < BLOCK_SIZE := by
        unfold BLOCK_SIZE at *
        omega
      have step : At index n
          { index := it.index + 1, i := it.i + 1,
            cellByte := { it.cellByte with index := it.cellByte.index + 1 } } := by
        refine ⟨?_, ?_, ?_, slot₁, bound, counts.imp (fun same => ⟨same.1, ?_⟩) id⟩
        · dsimp only
          omega
        · dsimp only [BigIterator.cell]
          omega
        · dsimp only
          omega
        · dsimp only
          omega
      have block₁ : m₁.HasBlock it.cellByte.base := by
        rw [Memory.HasBlock, size_eq]
        exact whole.base_block block
      have block₂ : m₁.HasBlock (it.cellByte.base + (it.cellByte.index + 1) / 8) := by
        refine hasBlock_of_le block₁ ?_
        unfold BLOCK_SIZE at *
        omega
      rw [BigIterator.next, if_neg notBoundary, if_pos crossing, CellByte.next, if_pos crossing',
        flushed]
      simp only [Option.bind_eq_bind, Option.bind_some]
      by_cases more : it.cellByte.index + 1 < it.cellByte.n
      · have loads : Loads it := ⟨crossing, .inr more⟩
        rw [if_pos more, read_eq block₁ slot₁]
        simp only [Option.bind_some]
        refine ⟨_, _, rfl, ⟨step.1, step.2, step.3, step.4, step.5, step.6⟩,
          ⟨rfl, word_eq, size_eq, ?_, ?_, ?_, ?_, fun _ => rfl, block₂⟩⟩
        · intro a inside
          obtain rfl | inside := List.mem_cons.1 inside
          · refine .inr (.inr ⟨loads, ?_⟩)
            omega
          · exact (touches a inside).imp id .inl
        · exact fun a inside => List.mem_cons_of_mem _ (grows a inside)
        · intro _
          refine List.mem_cons.2 (.inl ?_)
          omega
        · intro _ _
          unfold Fresh
          rfl
      · rw [if_neg more]
        have idle : ¬ Loads it := fun loads => loads.2.elim boundary more
        refine ⟨_, _, rfl, ⟨step.1, step.2, step.3, step.4, step.5, step.6⟩,
          ⟨rfl, word_eq, size_eq, ?_, grows, ?_, ?_, fun _ => rfl, block₂⟩⟩
        · exact fun a inside => (touches a inside).imp id .inl
        · exact fun loads => absurd loads idle
        · exact fun _ moves => (moves.elim (absurd crossing) idle).elim
  · have crossing' : ¬ (it.cellByte.index + 1) % 8 = 0 := by omega
    have idle : ¬ Loads it := fun loads => crossing loads.1
    have cell_eq : (it.cellByte.index + 1) / 8 = it.cellByte.index / 8 := by omega
    rw [BigIterator.next, if_neg (fun both => crossing both.1), if_neg crossing, CellByte.next,
      if_neg crossing']
    simp only [Option.bind_eq_bind, Option.bind_some]
    refine ⟨_, _, rfl, ⟨?_, ?_, ?_, ?_, bound, counts.imp (fun same => ⟨same.1, ?_⟩) id⟩,
      ⟨rfl, ?_, rfl, fun a inside => .inl inside, fun a inside => inside,
        fun loads => absurd loads idle, ?_, fun now => absurd now crossing, ?_⟩⟩
    · dsimp only
      omega
    · dsimp only [BigIterator.cell]
      omega
    · dsimp only
      omega
    · dsimp only
      omega
    · dsimp only
      omega
    · simp only [view, BigIterator.cell, cell_eq]
    · intro fresh _
      simpa only [Fresh, view, BigIterator.cell, cell_eq] using fresh
    · simpa only [BigIterator.cell, cell_eq] using block

theorem At.set (at_ : At index n it) (v : UInt8) : At index n (it.set v) :=
  ⟨at_.1, at_.2, at_.3, at_.4, at_.5, at_.6⟩

theorem At.index_le (at_ : At index n it) : it.cellByte.index ≤ it.i := by
  obtain ⟨place, held, lane, -, -, counts⟩ := at_
  unfold BigIterator.cell at held
  omega

theorem fresh_set (it : BigIterator) (m : Memory) (v : UInt8) : Fresh (it.set v) m := by
  have dirty : (it.set v).cellByte.dirty = true := rfl
  rw [Fresh, view, if_pos dirty]
  exact (Function.update_self it.cell (it.set v).cellByte.cached m.word).symm

theorem At.view_set (at_ : At index n it) (fresh : Fresh it m) (v : UInt8) :
    view (it.set v) m = store (view it m) (8 * index + it.i) v := by
  have place := at_.place
  have cell_eq : it.cell = (8 * index + it.i) / 8 := by
    rw [at_.held]
    omega
  have lane_eq : it.cellByte.index % 8 = (8 * index + it.i) % 8 := by
    rw [at_.lane]
    omega
  have updated : Function.update (view it m) it.cell (it.set v).cellByte.cached =
      Function.update m.word it.cell (it.set v).cellByte.cached := by
    unfold view
    split_ifs
    · exact Function.update_idem _ _ _
    · rfl
  rw [store, ← cell_eq, ← lane_eq, ← fresh]
  exact updated.symm

theorem At.get_eq (at_ : At index n it) (fresh : Fresh it m) :
    it.cellByte.get = load (view it m) (8 * index + it.i) := by
  have place := at_.place
  have held := at_.held
  rw [CellByte.get, fresh, load, at_.lane, held, place]
  congr 1
  · congr 1
    omega
  · omega

end Steps

section Runs

variable {index n : ℕ} {it : BigIterator} {m : Memory}

/-- The cells of a bignum of `n` bytes at `index`. -/
def InCells (index n a : ℕ) : Prop := index ≤ a ∧ a ≤ index + (n + 3) / 8

/-- The last step runs out of the bignum: its bytes fill the last cell, and a block ends between
its first cell and its end. -/
def Overreads (index n : ℕ) : Prop :=
  n % 8 = 4 ∧ index / BLOCK_SIZE < (index + (n + 4) / 8) / BLOCK_SIZE

/-- A run of the iterator over `count` bytes that shows the words `w` in the end. -/
structure Ran (index n count : ℕ) (it : BigIterator) (m : Memory) (w : ℕ → Word)
    (it' : BigIterator) (m' : Memory) : Prop where
  at_ : At index n it'
  i_eq : it'.i = it.i + count
  view_eq : view it' m' = w
  size_eq : m'.size = m.size
  touches : ∀ a ∈ m'.touched, a ∈ m.touched ∨ InCells index n a
  grows : ∀ a ∈ m.touched, a ∈ m'.touched
  block : m'.HasBlock it'.cell

theorem At.held_in (at_ : At index n it) (room : it.i < n + 4) : InCells index n it.cell := by
  rw [at_.held, at_.place]
  unfold InCells
  omega

theorem At.block (at_ : At index n it) (room : it.i < n + 4)
    (fits : index + (n + 3) / 8 < m.size) : m.HasBlock it.cell := by
  have inside := (at_.held_in room).2
  exact hasBlock_of_lt (by omega)

theorem At.next_inside (at_ : At index n it) (room : it.i + 1 < n + 4)
    (fits : index + (n + 3) / 8 < m.size) (fresh : Fresh it m) :
    ∃ it' m', it.next m = some (it', m') ∧ Ran index n 1 it m (view it m) it' m' ∧
      Fresh it' m' := by
  have place := at_.place
  have next_in : Loads it → InCells index n (it.index + 1) := by
    intro loads
    have crossing := loads.1
    unfold InCells
    omega
  obtain ⟨it', m', moved, at', ran⟩ := at_.next_some (at_.block (by omega) fits) fun loads =>
    hasBlock_of_lt (lt_of_le_of_lt (next_in loads).2 fits)
  refine ⟨it', m', moved, ⟨at', ran.i_eq, ran.view_eq, ran.size_eq, ?_, ran.grows, ran.block⟩, ?_⟩
  · intro a inside
    obtain old | rfl | ⟨loads, rfl⟩ := ran.touches a inside
    · exact .inl old
    · exact .inr (at_.held_in (by omega))
    · exact .inr (next_in loads)
  · refine ran.fresh fresh ?_
    by_cases crossing : (it.i + 1) % 8 = 0
    · refine .inr ⟨crossing, .inr ?_⟩
      have behind := at_.index_le
      rw [at_.bound]
      omega
    · exact .inl crossing

theorem At.loads_iff (at_ : At index n it) (last : it.i + 1 = n + 4) :
    Loads it ↔ Overreads index n := by
  have behind := at_.index_le
  obtain ⟨place, held, lane, inBlock, bound, counts⟩ := at_
  unfold BigIterator.cell at held
  unfold Loads Overreads
  rw [bound]
  unfold BLOCK_SIZE at *
  omega

theorem At.next_last (at_ : At index n it) (last : it.i + 1 = n + 4)
    (fits : index + (n + 3) / 8 < m.size) (within : ¬ Overreads index n) :
    ∃ it' m', it.next m = some (it', m') ∧ Ran index n 1 it m (view it m) it' m' ∧
      (n % 8 = 4 → it'.cellByte.dirty = false) := by
  have idle : ¬ Loads it := fun loads => within ((at_.loads_iff last).1 loads)
  obtain ⟨it', m', moved, at', ran⟩ :=
    at_.next_some (at_.block (by omega) fits) fun loads => absurd loads idle
  refine ⟨it', m', moved, ⟨at', ran.i_eq, ran.view_eq, ran.size_eq, ?_, ran.grows, ran.block⟩,
    fun full => ran.clean (by omega)⟩
  intro a inside
  obtain old | rfl | ⟨loads, -⟩ := ran.touches a inside
  · exact .inl old
  · exact .inr (at_.held_in (by omega))
  · exact absurd loads idle

theorem At.next_overreads (at_ : At index n it) (last : it.i + 1 = n + 4)
    (fits : index + (n + 3) / 8 < m.size) (spills : Overreads index n) {it' : BigIterator}
    {m' : Memory} (moved : it.next m = some (it', m')) :
    index + (n + 4) / 8 ∈ m'.touched := by
  have place := at_.place
  have loads := (at_.loads_iff last).2 spills
  have after : it.index + 1 = index + (n + 4) / 8 := by
    have crossing := loads.1
    omega
  by_cases block : m.HasBlock (it.index + 1)
  · obtain ⟨it'', m'', moved', -, ran⟩ :=
      at_.next_some (at_.block (by omega) fits) fun _ => block
    obtain ⟨rfl, rfl⟩ := Prod.mk.inj (Option.some.inj (moved.symm.trans moved'))
    rw [← after]
    exact ran.loaded loads
  · rw [at_.next_none (at_.block (by omega) fits) loads block] at moved
    cases moved

theorem Ran.trans {c₁ c₂ : ℕ} {w₁ w₂ : ℕ → Word} {it₁ it₂ : BigIterator} {m₁ m₂ : Memory}
    (first : Ran index n c₁ it m w₁ it₁ m₁) (second : Ran index n c₂ it₁ m₁ w₂ it₂ m₂) :
    Ran index n (c₁ + c₂) it m w₂ it₂ m₂ := by
  refine ⟨second.at_, ?_, second.view_eq, second.size_eq.trans first.size_eq, ?_, ?_,
    second.block⟩
  · rw [second.i_eq, first.i_eq, Nat.add_assoc]
  · exact fun a inside => (second.touches a inside).elim (first.touches a) .inr
  · exact fun a inside => second.grows a (first.grows a inside)

theorem Ran.refl (at_ : At index n it) (block : m.HasBlock it.cell) :
    Ran index n 0 it m (view it m) it m :=
  ⟨at_, rfl, rfl, rfl, fun _ inside => .inl inside, fun _ inside => inside, block⟩

theorem Ran.of_set {c : ℕ} {v : UInt8} {w : ℕ → Word} {it' : BigIterator} {m' : Memory}
    (ran : Ran index n c (it.set v) m w it' m') : Ran index n c it m w it' m' :=
  ⟨ran.1, ran.2, ran.3, ran.4, ran.5, ran.6, ran.7⟩

theorem writeAll_append (xs ys : List UInt8) :
    it.writeAll (xs ++ ys) m = (it.writeAll xs m).bind fun r => r.1.writeAll ys r.2 := by
  induction xs generalizing it m with
  | nil => rfl
  | cons x xs ih =>
    simp only [List.cons_append, BigIterator.writeAll, Option.bind_eq_bind, ih]
    cases (it.set x).next m with
    | none => rfl
    | some r => rfl

theorem At.writeAll_inside (bytes : List UInt8) (at_ : At index n it)
    (room : it.i + bytes.length < n + 4) (fits : index + (n + 3) / 8 < m.size)
    (fresh : Fresh it m) :
    ∃ it' m', it.writeAll bytes m = some (it', m') ∧
      Ran index n bytes.length it m (storeBytes (view it m) (8 * index + it.i) bytes) it' m' ∧
      Fresh it' m' := by
  induction bytes generalizing it m with
  | nil => exact ⟨it, m, rfl, Ran.refl at_ (at_.block (by omega) fits), fresh⟩
  | cons v rest ih =>
    rw [List.length_cons] at room
    have freshSet : Fresh (it.set v) m := fresh_set it m v
    obtain ⟨it₁, m₁, moved, ran₁, fresh₁⟩ :=
      (at_.set v).next_inside (show (it.set v).i + 1 < n + 4 by change it.i + 1 < n + 4; omega)
        fits freshSet
    have i₁ : it₁.i = it.i + 1 := ran₁.i_eq
    obtain ⟨it₂, m₂, wrote, ran₂, fresh₂⟩ :=
      ih ran₁.at_ (by omega) (by rw [ran₁.size_eq]; exact fits) fresh₁
    refine ⟨it₂, m₂, ?_, ?_, fresh₂⟩
    · simp only [BigIterator.writeAll, moved, Option.bind_eq_bind, Option.bind_some, wrote]
    · rw [List.length_cons, Nat.add_comm, storeBytes, ← at_.view_set fresh, ← ran₁.view_eq,
        Nat.add_assoc, ← i₁]
      exact ran₁.of_set.trans ran₂

theorem At.writeAll_all {bytes : List UInt8} (at_ : At index n it) (some_ : bytes ≠ [])
    (all : it.i + bytes.length = n + 4) (fits : index + (n + 3) / 8 < m.size)
    (fresh : Fresh it m) (within : ¬ Overreads index n) :
    ∃ it' m', it.writeAll bytes m = some (it', m') ∧
      Ran index n bytes.length it m (storeBytes (view it m) (8 * index + it.i) bytes) it' m' ∧
      (n % 8 = 4 → it'.cellByte.dirty = false) := by
  obtain ⟨front, v, rfl⟩ := bytes.eq_nil_or_concat'.resolve_left some_
  rw [List.length_append, List.length_singleton] at all
  obtain ⟨it₁, m₁, wrote, ran₁, fresh₁⟩ := at_.writeAll_inside front (by omega) fits fresh
  have i₁ := ran₁.i_eq
  obtain ⟨it₂, m₂, moved, ran₂, clean⟩ := (ran₁.at_.set v).next_last
    (show it₁.i + 1 = n + 4 by omega) (by rw [ran₁.size_eq]; exact fits) within
  refine ⟨it₂, m₂, ?_, ?_, clean⟩
  · rw [writeAll_append, wrote]
    simp only [Option.bind_some, BigIterator.writeAll, moved, Option.bind_eq_bind]
  · rw [storeBytes_append, List.length_append, List.length_singleton, Nat.add_assoc, ← i₁,
      ← ran₁.view_eq]
    rw [ran₁.at_.view_set fresh₁] at ran₂
    exact ran₁.trans ran₂.of_set

theorem At.writeAll_overreads {bytes : List UInt8} (at_ : At index n it) (some_ : bytes ≠ [])
    (all : it.i + bytes.length = n + 4) (fits : index + (n + 3) / 8 < m.size)
    (fresh : Fresh it m) (spills : Overreads index n) {it' : BigIterator} {m' : Memory}
    (wrote : it.writeAll bytes m = some (it', m')) : index + (n + 4) / 8 ∈ m'.touched := by
  obtain ⟨front, v, rfl⟩ := bytes.eq_nil_or_concat'.resolve_left some_
  rw [List.length_append, List.length_singleton] at all
  obtain ⟨it₁, m₁, wrote₁, ran₁, fresh₁⟩ := at_.writeAll_inside front (by omega) fits fresh
  have i₁ := ran₁.i_eq
  rw [writeAll_append, wrote₁] at wrote
  simp only [Option.bind_some, BigIterator.writeAll, Option.bind_eq_bind] at wrote
  cases moved : (it₁.set v).next m₁ with
  | none =>
    rw [moved] at wrote
    cases wrote
  | some r =>
    rw [moved] at wrote
    cases wrote
    exact (ran₁.at_.set v).next_overreads (show it₁.i + 1 = n + 4 by omega)
      (by rw [ran₁.size_eq]; exact fits) spills moved

theorem readAll_cons (it : BigIterator) (m : Memory) (count : ℕ) :
    it.readAll (count + 1) m = (it.next m).bind fun r =>
      (r.1.readAll count r.2).map fun s => (it.cellByte.get :: s.1, s.2) := by
  rw [BigIterator.readAll]
  cases it.next m with
  | none => rfl
  | some r =>
    simp only [Option.bind_eq_bind, Option.bind_some]
    cases r.1.readAll count r.2 with
    | none => rfl
    | some s => rfl

theorem readAll_succ (count : ℕ) :
    it.readAll (count + 1) m = (it.readAll count m).bind fun r =>
      (r.2.1.next r.2.2).map fun s => (r.1 ++ [r.2.1.cellByte.get], s) := by
  induction count generalizing it m with
  | zero =>
    simp only [BigIterator.readAll, Option.bind_eq_bind, Option.bind_some]
    cases it.next m with
    | none => rfl
    | some r => rfl
  | succ count ih =>
    rw [readAll_cons it m (count + 1), readAll_cons it m count]
    cases it.next m with
    | none => rfl
    | some r =>
      simp only [Option.bind_some, ih]
      cases r.1.readAll count r.2 with
      | none => rfl
      | some s =>
        simp only [Option.bind_some, Option.map_some]
        cases s.2.1.next s.2.2 with
        | none => rfl
        | some t => rfl

theorem At.readAll_inside (count : ℕ) (at_ : At index n it) (room : it.i + count < n + 4)
    (fits : index + (n + 3) / 8 < m.size) (fresh : Fresh it m) :
    ∃ it' m', it.readAll count m =
        some (loadBytes (view it m) (8 * index + it.i) count, it', m') ∧
      Ran index n count it m (view it m) it' m' ∧ Fresh it' m' := by
  induction count generalizing it m with
  | zero => exact ⟨it, m, rfl, Ran.refl at_ (at_.block (by omega) fits), fresh⟩
  | succ count ih =>
    obtain ⟨it₁, m₁, moved, ran₁, fresh₁⟩ := at_.next_inside (by omega) fits fresh
    have i₁ := ran₁.i_eq
    obtain ⟨it₂, m₂, readRest, ran₂, fresh₂⟩ :=
      ih ran₁.at_ (by omega) (by rw [ran₁.size_eq]; exact fits) fresh₁
    rw [ran₁.view_eq, i₁] at readRest
    rw [ran₁.view_eq] at ran₂
    refine ⟨it₂, m₂, ?_, ?_, fresh₂⟩
    · simp only [BigIterator.readAll, moved, Option.bind_eq_bind, Option.bind_some, readRest,
        at_.get_eq fresh, loadBytes, Nat.add_assoc]
      rfl
    · rw [Nat.add_comm count]
      exact ran₁.trans ran₂

theorem At.readAll_all {count : ℕ} (at_ : At index n it) (some_ : 0 < count)
    (all : it.i + count = n + 4) (fits : index + (n + 3) / 8 < m.size)
    (fresh : Fresh it m) (within : ¬ Overreads index n) :
    ∃ it' m', it.readAll count m =
        some (loadBytes (view it m) (8 * index + it.i) count, it', m') ∧
      Ran index n count it m (view it m) it' m' ∧
      (n % 8 = 4 → it'.cellByte.dirty = false) := by
  obtain ⟨k, rfl⟩ : ∃ k, count = k + 1 := ⟨count - 1, by omega⟩
  obtain ⟨it₁, m₁, readFront, ran₁, fresh₁⟩ := at_.readAll_inside k (by omega) fits fresh
  have i₁ := ran₁.i_eq
  obtain ⟨it₂, m₂, moved, ran₂, clean⟩ :=
    ran₁.at_.next_last (by omega) (by rw [ran₁.size_eq]; exact fits) within
  refine ⟨it₂, m₂, ?_, ?_, clean⟩
  · rw [readAll_succ, readFront, loadBytes_append]
    simp only [Option.bind_some, moved, Option.map_some, ran₁.at_.get_eq fresh₁, ran₁.view_eq, i₁,
      loadBytes, Nat.add_assoc]
  · rw [ran₁.view_eq] at ran₂
    exact ran₁.trans ran₂

end Runs

section Bignums

variable {m : Memory} {index : ℕ}

theorem numCells_eq (m : Memory) (index : ℕ) :
    numCells m index = (numBytes m index + 3) / 8 + 1 := by
  simp only [numCells, numBytes, numBits, Cell.numCells, Cell.numHalfCells]
  omega

theorem numBits_congr {m' : Memory}
    (same : (m'.word index).setWidth 32 = (m.word index).setWidth 32) :
    numBits m' index = numBits m index := by
  have low := congrArg BitVec.toNat same
  rw [BitVec.toNat_setWidth, BitVec.toNat_setWidth] at low
  simp only [numBits, Cell.numBits, Cell.value]
  omega

/-- The iterator at the first byte, after the header was read. -/
structure Began (index n : ℕ) (m : Memory) (it : BigIterator) (m' : Memory) : Prop where
  at_ : At index n it
  i_eq : it.i = 4
  view_eq : view it m' = m.word
  size_eq : m'.size = m.size
  fresh : Fresh it m'
  touches : ∀ a ∈ m'.touched, a ∈ m.touched ∨ InCells index n a
  grows : ∀ a ∈ m.touched, a ∈ m'.touched
  block : m'.HasBlock it.cell

theorem begin_eq (block : m.HasBlock index) :
    ∃ it m', begin m index = some (it, m') ∧ Began index (numBytes m index) m it m' := by
  have low : index % BLOCK_SIZE + 0 < BLOCK_SIZE := Nat.mod_lt _ (by decide)
  have block' : Memory.HasBlock { m with touched := (index + 0) :: m.touched } index := block
  refine ⟨⟨index, 4, ⟨index, 4, numBytes m index + 4, m.word index, false⟩⟩,
    { m with touched := index :: index :: m.touched }, ?_, ⟨⟨?_, ?_, rfl, ?_, rfl, ?_⟩, rfl, rfl,
      rfl, ?_, ?_, ?_, ?_⟩⟩
  · rw [begin, read_eq block low]
    simp only [Option.bind_eq_bind, Option.bind_some, BigIterator.new, CellByte.new,
      read_eq block' low]
    rfl
  · norm_num
  · norm_num [BigIterator.cell]
  · simpa using low
  · exact .inl ⟨rfl, rfl⟩
  · norm_num [Fresh, view, BigIterator.cell]
  · intro a inside
    simp only [List.mem_cons, or_self_left] at inside
    refine inside.symm.imp id ?_
    rintro rfl
    unfold InCells
    omega
  · exact fun a inside => List.mem_cons_of_mem _ (List.mem_cons_of_mem _ inside)
  · norm_num [BigIterator.cell]
    exact block

/-- What a whole access to a bignum leaves: the words, and the cells that it touched. -/
structure Accessed (index n : ℕ) (m : Memory) (w : ℕ → Word) (m' : Memory) : Prop where
  word_eq : m'.word = w
  size_eq : m'.size = m.size
  touches : ∀ a ∈ m'.touched, a ∈ m.touched ∨ InCells index n a

theorem Ran.flush {n count : ℕ} {it it' : BigIterator} {m' : Memory} {w : ℕ → Word}
    (ran : Ran index n count it m w it' m') (whole : it.i + count = n + 4)
    (clean : n % 8 = 4 → it'.cellByte.dirty = false) :
    ∃ m'', it'.cellByte.flush m' = some m'' ∧ Accessed index n m w m'' := by
  have i_eq := ran.i_eq
  by_cases dirty : it'.cellByte.dirty = true
  · have lastCell : InCells index n it'.cell := by
      have room : n % 8 ≠ 4 := fun full => by simp [clean full] at dirty
      rw [ran.at_.held, ran.at_.place]
      unfold InCells
      omega
    obtain ⟨m'', flushed, word_eq, size_eq, touches, -⟩ := ran.at_.flush_eq ran.block
    refine ⟨m'', flushed, word_eq.trans ran.view_eq, size_eq.trans ran.size_eq, ?_⟩
    intro a inside
    obtain old | rfl := touches a inside
    · exact ran.touches a old
    · exact .inr lastCell
  · refine ⟨m', if_neg dirty, ?_, ran.size_eq, ran.touches⟩
    rw [← ran.view_eq, view, if_neg dirty]

theorem Began.ran {n count : ℕ} {it it' : BigIterator} {m₁ m' : Memory} {w : ℕ → Word}
    (began : Began index n m it m₁) (ran : Ran index n count it m₁ w it' m') :
    Ran index n count it m w it' m' :=
  ⟨ran.at_, ran.i_eq, ran.view_eq, ran.size_eq.trans began.size_eq,
    fun a inside => (ran.touches a inside).elim (began.touches a) .inr,
    fun a inside => ran.grows a (began.grows a inside), ran.block⟩

theorem setBig_eq {bytes : List UInt8} (whole : bytes.length = numBytes m index)
    (fits : index + (bytes.length + 3) / 8 < m.size) (within : ¬ Overreads index bytes.length) :
    ∃ m', setBig m index bytes = some m' ∧
      Accessed index bytes.length m (storeBytes m.word (8 * index + 4) bytes) m' := by
  have inside : index < m.size := by omega
  obtain ⟨it, m₁, started, began⟩ := begin_eq (m := m) (hasBlock_of_lt inside)
  rw [← whole] at began
  have fits₁ : index + (bytes.length + 3) / 8 < m₁.size := by rw [began.size_eq]; exact fits
  have written : ∃ it' m₂, it.writeAll bytes m₁ = some (it', m₂) ∧
      Ran index bytes.length bytes.length it m₁
        (storeBytes (view it m₁) (8 * index + it.i) bytes) it' m₂ ∧
      (bytes.length % 8 = 4 → it'.cellByte.dirty = false) := by
    by_cases none_ : bytes = []
    · subst none_
      refine ⟨it, m₁, rfl, Ran.refl began.at_ began.block, fun full => ?_⟩
      exact absurd full (by norm_num)
    · exact began.at_.writeAll_all none_ (by rw [began.i_eq, Nat.add_comm]) fits₁ began.fresh
        within
  obtain ⟨it', m₂, wrote, ran, clean⟩ := written
  rw [began.view_eq, began.i_eq] at ran
  obtain ⟨m₃, flushed, done⟩ :=
    (began.ran ran).flush (by rw [began.i_eq, Nat.add_comm]) clean
  refine ⟨m₃, ?_, done⟩
  simp only [setBig, guard, inside, if_true, started, wrote, flushed, Option.pure_def,
    Option.bind_eq_bind, Option.bind_some]

theorem getBig_eq {n : ℕ} (whole : n = numBytes m index) (fits : index + (n + 3) / 8 < m.size)
    (space : m.size < 2 ^ 61) (within : ¬ Overreads index n) (nonempty : n = 0 → index ≠ 0) :
    ∃ m', getBig m index n = some (loadBytes m.word (8 * index + 4) n, m') ∧
      Accessed index n m m.word m' := by
  have inside : index < m.size := by omega
  have checked : (BitVec.ofNat 64 (index + (n + 7) / 8) - 1).toNat < m.size := by
    have positive : 1 ≤ index + (n + 7) / 8 := by omega
    have small : index + (n + 7) / 8 < 2 ^ 64 := by omega
    rw [BitVec.toNat_sub_of_le, BitVec.toNat_ofNat, Nat.mod_eq_of_lt small]
    · change index + (n + 7) / 8 - 1 < m.size
      omega
    · rw [BitVec.le_def, BitVec.toNat_ofNat, Nat.mod_eq_of_lt small]
      exact positive
  obtain ⟨it, m₁, started, began⟩ := begin_eq (m := m) (hasBlock_of_lt inside)
  rw [← whole] at began
  have fits₁ : index + (n + 3) / 8 < m₁.size := by rw [began.size_eq]; exact fits
  have readOut : ∃ it' m₂, it.readAll n m₁ =
        some (loadBytes (view it m₁) (8 * index + it.i) n, it', m₂) ∧
      Ran index n n it m₁ (view it m₁) it' m₂ ∧
      (n % 8 = 4 → it'.cellByte.dirty = false) := by
    by_cases none_ : n = 0
    · subst none_
      refine ⟨it, m₁, rfl, Ran.refl began.at_ began.block, fun full => ?_⟩
      exact absurd full (by norm_num)
    · exact began.at_.readAll_all (by omega) (by rw [began.i_eq, Nat.add_comm]) fits₁ began.fresh
        within
  obtain ⟨it', m₂, readIt, ran, clean⟩ := readOut
  rw [began.view_eq, began.i_eq] at readIt
  rw [began.view_eq] at ran
  obtain ⟨m₃, flushed, done⟩ :=
    (began.ran ran).flush (by rw [began.i_eq, Nat.add_comm]) clean
  refine ⟨m₃, ?_, done⟩
  simp only [getBig, guard, inside, checked, if_true, started, readIt, flushed, Option.pure_def,
    Option.bind_eq_bind, Option.bind_some]

theorem flush_grows {cb : CellByte} {m' : Memory} (flushed : cb.flush m = some m') {a : ℕ}
    (inside : a ∈ m.touched) : a ∈ m'.touched := by
  unfold CellByte.flush Memory.write at flushed
  split_ifs at flushed
  · cases place : slot m cb.base (cb.index / 8) with
    | none =>
      rw [place] at flushed
      cases flushed
    | some addr =>
      rw [place] at flushed
      cases flushed
      exact List.mem_cons_of_mem _ inside
  · cases flushed
    exact inside

theorem setBig_overreads {bytes : List UInt8} (whole : bytes.length = numBytes m index)
    (fits : index + (bytes.length + 3) / 8 < m.size) (spills : Overreads index bytes.length)
    {m' : Memory} (set : setBig m index bytes = some m') :
    index + (bytes.length + 4) / 8 ∈ m'.touched := by
  have inside : index < m.size := by omega
  have some_ : bytes ≠ [] := by
    rintro rfl
    exact absurd spills.1 (by norm_num)
  obtain ⟨it, m₁, started, began⟩ := begin_eq (m := m) (hasBlock_of_lt inside)
  rw [← whole] at began
  simp only [setBig, guard, inside, if_true, started, Option.pure_def, Option.bind_eq_bind,
    Option.bind_some] at set
  cases wrote : it.writeAll bytes m₁ with
  | none =>
    rw [wrote] at set
    cases set
  | some r =>
    rw [wrote] at set
    exact flush_grows set (began.at_.writeAll_overreads some_
      (by rw [began.i_eq, Nat.add_comm]) (by rw [began.size_eq]; exact fits) began.fresh spills wrote)

/-- The bytes written to the bignum at `index` are read back, no cell outside it is touched, and
all others stay. -/
def KeptBytes (word : ℕ → Word) (size index : ℕ) (bytes : List UInt8) : Prop :=
  ∃ m₁ m₂, setBig ⟨word, size, []⟩ index bytes = some m₁ ∧
    getBig m₁ index bytes.length = some (bytes, m₂) ∧
    (∀ a ∈ m₁.touched ++ m₂.touched,
      index ≤ a ∧ a < index + numCells ⟨word, size, []⟩ index ∧ a < size) ∧
    ∀ a, a < index ∨ index + numCells ⟨word, size, []⟩ index ≤ a → m₂.word a = word a

variable {word : ℕ → Word} {size : ℕ} {bytes : List UInt8}

theorem keptBytes_of_within (space : size < 2 ^ 61)
    (whole : bytes.length = numBytes ⟨word, size, []⟩ index)
    (fits : index + numCells ⟨word, size, []⟩ index ≤ size)
    (within : ¬ Overreads index bytes.length) (nonempty : bytes = [] → index ≠ 0) :
    KeptBytes word size index bytes := by
  have cells := numCells_eq ⟨word, size, []⟩ index
  rw [← whole] at cells
  obtain ⟨m₁, set, first⟩ := setBig_eq (m := ⟨word, size, []⟩) whole
    (show index + (bytes.length + 3) / 8 < size by omega) within
  have sizeEq : m₁.size = size := first.size_eq
  have wordEq : m₁.word = storeBytes word (8 * index + 4) bytes := first.word_eq
  have header : numBits m₁ index = numBits ⟨word, size, []⟩ index := by
    refine numBits_congr ?_
    rw [wordEq]
    exact setWidth_storeBytes word 4 (by norm_num) (le_refl _) bytes
  obtain ⟨m₂, get, second⟩ := getBig_eq (m := m₁)
    (show bytes.length = numBytes m₁ index by rw [whole, numBytes, numBytes, header]) (by omega) (by omega) within
    fun empty => nonempty (List.length_eq_zero_iff.1 empty)
  rw [wordEq, loadBytes_storeBytes] at get
  have inCells : ∀ a, InCells index bytes.length a →
      index ≤ a ∧ a < index + numCells ⟨word, size, []⟩ index ∧ a < size := by
    unfold InCells
    omega
  have firstIn : ∀ a ∈ m₁.touched, InCells index bytes.length a := fun a inside =>
    (first.touches a inside).resolve_left List.not_mem_nil
  refine ⟨m₁, m₂, set, get, ?_, ?_⟩
  · intro a inside
    obtain inside | inside := List.mem_append.1 inside
    · exact inCells a (firstIn a inside)
    · exact inCells a ((second.touches a inside).elim (firstIn a) id)
  · intro a outside
    rw [second.word_eq, wordEq]
    refine storeBytes_of_not_mem _ fun i less => ?_
    omega

/-- A bignum is written and read back within its cells just when its bytes do not fill the last
cell behind or at the end of a block, and the check of an empty one does not wrap. -/
theorem keptBytes_iff (space : size < 2 ^ 61)
    (whole : bytes.length = numBytes ⟨word, size, []⟩ index)
    (fits : index + numCells ⟨word, size, []⟩ index ≤ size) :
    KeptBytes word size index bytes ↔
      ¬ Overreads index bytes.length ∧ ¬ (bytes = [] ∧ index = 0) := by
  constructor
  · rintro ⟨m₁, m₂, set, get, touches, -⟩
    have cells := numCells_eq ⟨word, size, []⟩ index
    rw [← whole] at cells
    constructor
    · intro spills
      have beyond := setBig_overreads (m := ⟨word, size, []⟩) whole
        (show index + (bytes.length + 3) / 8 < size by omega) spills set
      have inside := (touches _ (List.mem_append_left _ beyond)).2.1
      have full := spills.1
      omega
    · rintro ⟨rfl, rfl⟩
      obtain ⟨m₁', set', done⟩ := setBig_eq (m := ⟨word, size, []⟩) whole
        (show 0 + (0 + 3) / 8 < size by omega) fun spills => absurd spills.1 (by norm_num)
      obtain rfl := Option.some.inj (set.symm.trans set')
      have sizeEq : m₁.size = size := done.size_eq
      have wraps : ¬ (BitVec.ofNat 64 (0 + (0 + 7) / 8) - 1).toNat < m₁.size := by
        have top : (BitVec.ofNat 64 (0 + (0 + 7) / 8) - 1).toNat = 2 ^ 64 - 1 := by decide
        omega
      rw [getBig, List.length_nil] at get
      simp only [guard, wraps, if_false, failure, Option.bind_eq_bind, Option.bind_none,
        Option.bind_fun_none] at get
      exact absurd get (by simp)
  · rintro ⟨within, nonempty⟩
    exact keptBytes_of_within space whole fits within fun empty zero => nonempty ⟨empty, zero⟩

/-- The header of a bignum of `num_bits` bits, as `new_big` writes it -/
def bigHeader (num_bits : ℕ) : Word := (Cell.make .DAT num_bits).raw

/-- A bignum of 12 bytes in the middle of a block. -/
theorem keptBytes_twelve :
    KeptBytes (fun _ => bigHeader 96) 100 50 [1, 2, 3, 4, 5, 6, 7, 8, 9, 10, 11, 12] :=
  (keptBytes_iff (by norm_num) (by decide) (by decide)).2 ⟨by
    unfold Overreads
    decide, by decide⟩

/-- A bignum of 12 bytes whose second cell is the last one of its block. -/
theorem boundary_overread : ¬ ∀ (word : ℕ → Word) (size index : ℕ) (bytes : List UInt8),
    size < 2 ^ 61 → bytes.length = numBytes ⟨word, size, []⟩ index →
    index + numCells ⟨word, size, []⟩ index ≤ size → KeptBytes word size index bytes := by
  intro always
  have whole : (List.replicate 12 (0 : UInt8)).length =
      numBytes ⟨fun _ => bigHeader 96, 8192, []⟩ 8190 := by decide
  obtain ⟨m₁, m₂, set, -, touches, -⟩ := always (fun _ => bigHeader 96) 8192 8190
    (List.replicate 12 0) (by norm_num) whole (by decide)
  have spills : Overreads 8190 (List.replicate 12 (0 : UInt8)).length := by
    unfold Overreads
    decide
  have beyond := setBig_overreads whole (by decide) spills set
  have inside := (touches _ (List.mem_append_left _ beyond)).2.2
  exact absurd inside (by decide)

end Bignums

end Epilog.Common.BigBytes
