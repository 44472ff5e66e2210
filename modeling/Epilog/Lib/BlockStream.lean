/- Module: Epilog/Lib/BlockStream
   source: none (library)
   digest: A message taken up in pieces through a buffer, a block at a time, against its blocks. -/

import Mathlib.Algebra.Order.Ring.Nat
import Mathlib.Data.List.TakeDrop

set_option autoImplicit false

namespace Epilog.Lib.BlockStream

section Blocks

variable {β : Type}

/-- The whole blocks at the front of a message -/
def blocks (size : ℕ) (m : List β) : List (List β) :=
  (List.range (m.length / size)).map fun i => (m.drop (i * size)).take size

variable {size : ℕ}

theorem blocks_cons (pos : 0 < size) {b : List β} (whole : b.length = size) (m : List β) :
    blocks size (b ++ m) = b :: blocks size m := by
  have count : (b ++ m).length / size = m.length / size + 1 := by
    rw [List.length_append, whole, Nat.add_div_left _ pos]
  unfold blocks
  rw [count, List.range_succ_eq_map, List.map_cons, List.map_map, zero_mul, List.drop_zero,
    List.take_left' whole]
  refine congrArg (b :: ·) (List.map_congr_left fun i _ => ?_)
  change List.take size (List.drop ((i + 1) * size) (b ++ m)) = _
  rw [add_mul, one_mul, Nat.add_comm, ← List.drop_drop, List.drop_left' whole]

theorem length_flatten {done : List (List β)} (whole : ∀ b ∈ done, b.length = size) :
    done.flatten.length = done.length * size := by
  induction done with
  | nil => exact (Nat.zero_mul size).symm
  | cons b done ih =>
    rw [List.flatten_cons, List.length_append, whole b List.mem_cons_self,
      ih fun c mem => whole c (List.mem_cons_of_mem b mem), List.length_cons, Nat.succ_mul,
      Nat.add_comm]

theorem blocks_flatten (pos : 0 < size) {done : List (List β)}
    (whole : ∀ b ∈ done, b.length = size) : blocks size done.flatten = done := by
  induction done with
  | nil =>
    unfold blocks
    rw [List.flatten_nil, List.length_nil, Nat.zero_div, List.range_zero, List.map_nil]
  | cons b done ih =>
    rw [List.flatten_cons, blocks_cons pos (whole b List.mem_cons_self),
      ih fun c mem => whole c (List.mem_cons_of_mem b mem)]

def place (buffer : Vector β size) (at_ : ℕ) (data : List β) : Vector β size :=
  Vector.ofFn fun i => if at_ ≤ i then (data[i.val - at_]?).getD buffer[i] else buffer[i]

theorem toList_place {buffer : Vector β size} {n : ℕ} {data : List β}
    (inside : n + data.length ≤ size) : (place buffer n data).toList =
      buffer.toList.take n ++ data ++ buffer.toList.drop (n + data.length) := by
  refine List.ext_getElem (by simp; omega) fun i small _ => ?_
  have small' : i < size := by simpa using small
  have here : (place buffer n data).toList[i] =
      if n ≤ i then (data[i - n]?).getD buffer[i] else buffer[i] := by
    simp [place]
  have length : (buffer.toList.take n).length = n := by
    rw [List.length_take, Vector.length_toList]
    omega
  rw [here]
  -- before the data, in it, and behind it
  by_cases before : i < n
  · rw [if_neg (by omega), List.getElem_append_left (by rw [List.length_append]; omega),
      List.getElem_append_left (by omega), List.getElem_take, Vector.getElem_toList]
  rw [if_pos (by omega)]
  by_cases inData : i < n + data.length
  · rw [List.getElem?_eq_getElem (by omega), Option.getD_some,
      List.getElem_append_left (by rw [List.length_append]; omega),
      List.getElem_append_right (by omega)]
    simp only [length]
  · rw [List.getElem?_eq_none (by omega), Option.getD_none,
      List.getElem_append_right (by rw [List.length_append]; omega), List.getElem_drop,
      Vector.getElem_toList]
    simp only [List.length_append, length, Nat.add_sub_cancel' (not_lt.1 inData)]

theorem take_place (buffer : Vector β size) {n : ℕ} {data : List β}
    (inside : n + data.length ≤ size) :
    (place buffer n data).toList.take (n + data.length) = buffer.toList.take n ++ data := by
  rw [toList_place inside]
  refine List.take_left' ?_
  rw [List.length_append, List.length_take, Vector.length_toList]
  omega

end Blocks

section Chain

variable {σ β : Type} {size : ℕ}

/-- A value that is updated by each block of a message -/
structure Chaining (σ β : Type) where
  start : σ
  compress : σ → List β → σ

variable (C : Chaining σ β) (size)

/-- What the blocks of a message lead to -/
def Chaining.chain (m : List β) : σ := (blocks size m).foldl C.compress C.start

/-- The blocks of the message are chained, and what is left of it is held. -/
def Absorbs (m : List β) (s : σ) (held : List β) : Prop :=
  ∃ done : List (List β), (∀ b ∈ done, b.length = size) ∧ m = done.flatten ++ held ∧
    held.length < size ∧ s = done.foldl C.compress C.start

variable {C} {size} {m held piece : List β} {s : σ}

theorem Absorbs.hold (absorbs : Absorbs size C m s held)
    (room : held.length + piece.length < size) :
    Absorbs size C (m ++ piece) s (held ++ piece) := by
  obtain ⟨done, whole, rfl, -, state⟩ := absorbs
  exact ⟨done, whole, List.append_assoc _ _ _, by rwa [List.length_append], state⟩

theorem Absorbs.fill (absorbs : Absorbs size C m s held)
    (full : held.length + piece.length = size) :
    Absorbs size C (m ++ piece) (C.compress s (held ++ piece)) [] := by
  obtain ⟨done, whole, rfl, short, rfl⟩ := absorbs
  refine ⟨done ++ [held ++ piece], fun b mem => ?_, ?_, ?_, ?_⟩
  · rcases List.mem_append.1 mem with old | new
    · exact whole b old
    · rw [List.mem_singleton.1 new, List.length_append, full]
  · rw [List.flatten_append, List.flatten_singleton, List.append_nil, List.append_assoc]
  · exact Nat.zero_lt_of_lt short
  · rw [List.foldl_append]
    rfl

theorem Absorbs.length_mod (absorbs : Absorbs size C m s held) :
    m.length % size = held.length := by
  obtain ⟨done, whole, rfl, short, -⟩ := absorbs
  rw [List.length_append, length_flatten whole, Nat.mul_add_mod_of_lt short]

/-- A message of whole blocks is chained as its blocks. -/
theorem Absorbs.chain (absorbs : Absorbs size C m s []) : s = C.chain size m := by
  obtain ⟨done, whole, rfl, short, rfl⟩ := absorbs
  unfold Chaining.chain
  rw [List.append_nil, blocks_flatten short whole]

/-- The message is chained but for what stands at the front of the buffer. -/
def Buffers (C : Chaining σ β) (m : List β) (s : σ) (buffer : Vector β size) (n : ℕ) : Prop :=
  n < size ∧ Absorbs size C m s (buffer.toList.take n)

variable {buffer : Vector β size} {n : ℕ}

theorem buffers_nil (pos : 0 < size) (buffer : Vector β size) :
    Buffers C [] C.start buffer 0 := ⟨pos, [], nofun, rfl, pos, rfl⟩

theorem Buffers.held_length (buffers : Buffers C m s buffer n) :
    (buffer.toList.take n).length = n := by
  rw [List.length_take, Vector.length_toList, Nat.min_eq_left buffers.1.le]

theorem Buffers.count (buffers : Buffers C m s buffer n) : m.length % size = n :=
  buffers.2.length_mod.trans buffers.held_length

/-- A piece that does not fill the buffer is copied behind what is held. -/
theorem Buffers.hold (buffers : Buffers C m s buffer n) (room : n + piece.length < size) :
    Buffers C (m ++ piece) s (place buffer n piece) (n + piece.length) := by
  have absorbs := buffers.2.hold (show _ + piece.length < size by rwa [buffers.held_length])
  rw [← take_place buffer room.le] at absorbs
  exact ⟨room, absorbs⟩

/-- A piece that fills the buffer is compressed with what is held. What is in the buffer then does
not matter. -/
theorem Buffers.fill (buffers : Buffers C m s buffer n) (full : n + piece.length = size)
    (buffer' : Vector β size) :
    Buffers C (m ++ piece) (C.compress s (place buffer n piece).toList) buffer' 0 := by
  have absorbs := buffers.2.fill (show _ + piece.length = size by rwa [buffers.held_length])
  rw [← take_place buffer full.le, full,
    List.take_of_length_le (Vector.length_toList).le] at absorbs
  exact ⟨Nat.zero_lt_of_lt buffers.1, absorbs⟩

theorem Buffers.chain (buffers : Buffers C m s buffer 0) : s = C.chain size m := buffers.2.chain

end Chain

section Padding

variable {β : Type}

/-- A message is followed by a mark, by as few zeros as there may be, and by `tail`, such that it
ends with a block. -/
def pad (size : ℕ) (mark zero : β) (tail m : List β) : List β :=
  m ++ mark ::
    List.replicate ((2 * size - 1 - tail.length - m.length % size) % size) zero ++ tail

variable {size n zeros : ℕ} {mark zero : β} {m tail : List β}

/-- The zeros are told by where the message ends in its block. -/
theorem pad_eq (count : m.length % size = n) (inside : n < size)
    (shape : n + 1 + zeros + tail.length = size ∨
      n + 1 + zeros + tail.length = 2 * size ∧ zeros < size) :
    pad size mark zero tail m = m ++ mark :: List.replicate zeros zero ++ tail := by
  have same : (2 * size - 1 - tail.length - n) % size = zeros := by
    rcases shape with one | ⟨two, few⟩
    · rw [show 2 * size - 1 - tail.length - n = zeros + size by omega, Nat.add_mod_right,
        Nat.mod_eq_of_lt (by omega)]
    · rw [show 2 * size - 1 - tail.length - n = zeros by omega, Nat.mod_eq_of_lt few]
  unfold pad
  rw [count, same]

/-- How many bytes there are from the end of a message to its tail, which starts at a place of the
last block -/
def padSize (size place n : ℕ) : ℕ := if n < place then place - n else size + place - n

/-- The mark and the zeros are the front of one block. -/
theorem take_padding {k : ℕ} (some_ : 0 < k) (few : k ≤ size) :
    (mark :: List.replicate (size - 1) zero).take k = mark :: List.replicate (k - 1) zero := by
  obtain ⟨k, rfl⟩ := Nat.exists_eq_succ_of_ne_zero some_.ne'
  rw [List.take_succ_cons, List.take_replicate, Nat.min_eq_left (by omega)]
  rfl

variable (mark zero m) in
theorem pad_taken {place : ℕ} (pos : 0 < place) (whole : place + tail.length = size) :
    pad size mark zero tail m = m ++ (mark :: List.replicate (size - 1) zero).take
      (padSize size place (m.length % size)) ++ tail := by
  have inside : m.length % size < size := Nat.mod_lt _ (by omega)
  unfold padSize
  rw [take_padding (by split_ifs <;> omega) (by split_ifs <;> omega)]
  refine pad_eq rfl inside ?_
  split_ifs <;> omega

/-- Behind the zeros stands the tail. -/
theorem place_reached {place : ℕ} (pos : 0 < place) (inside : place < size) :
    (m ++ (mark :: List.replicate (size - 1) zero).take
      (padSize size place (m.length % size))).length % size = place := by
  have small : m.length % size < size := Nat.mod_lt _ (by omega)
  have split := Nat.div_add_mod m.length size
  unfold padSize
  rw [take_padding (by split_ifs <;> omega) (by split_ifs <;> omega), List.length_append,
    List.length_cons, List.length_replicate]
  split_ifs
  · rw [show m.length + (place - m.length % size - 1 + 1) = size * (m.length / size) + place by
        omega, Nat.mul_add_mod, Nat.mod_eq_of_lt inside]
  · rw [show m.length + (size + place - m.length % size - 1 + 1) =
        size * (m.length / size) + size + place by omega,
      ← Nat.mul_succ, Nat.mul_add_mod, Nat.mod_eq_of_lt inside]

end Padding

section Pieces

variable {σ β : Type} {update : σ → List β → σ} {reads : σ → List β → Prop}

/-- What each piece keeps is so for the whole message. -/
theorem foldl_pieces {pieces : List (List β)} (step : ∀ piece ∈ pieces, ∀ s m, reads s m →
    reads (update s piece) (m ++ piece)) {s : σ} {m : List β} (first : reads s m) :
    reads (pieces.foldl update s) (m ++ pieces.flatten) := by
  induction pieces generalizing s m with
  | nil => rwa [List.flatten_nil, List.append_nil]
  | cons piece pieces ih =>
    rw [List.foldl_cons, List.flatten_cons, ← List.append_assoc]
    exact ih (fun p mem => step p (List.mem_cons_of_mem piece mem))
      (step piece List.mem_cons_self s m first)

end Pieces

end Epilog.Lib.BlockStream
