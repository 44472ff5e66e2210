/- Module: Epilog/Lib/ByteLanes
   digest: Bytes in 64-bit words: lanes of a word and a byte-addressed view of a word memory. -/

import Mathlib.Data.List.Basic
import Mathlib.Tactic.IntervalCases
import Mathlib.Tactic.Ring

set_option autoImplicit false

namespace Epilog.Lib.ByteLanes

abbrev Word := BitVec 64

section Lanes

/-- The byte in a lane, lane 0 being the lowest. -/
def getByte (w : Word) (lane : ℕ) : UInt8 := ⟨(w >>> (8 * lane)).setWidth 8⟩

def setByte (w : Word) (lane : ℕ) (v : UInt8) : Word :=
  w &&& ~~~(0xff#64 <<< (8 * lane)) ||| v.toBitVec.setWidth 64 <<< (8 * lane)

private theorem getLsbD_ff (i : ℕ) : (0xff#64).getLsbD i = decide (i < 8) := by
  by_cases low : i < 8
  · rw [decide_eq_true low]
    interval_cases i <;> rfl
  · have zero : (0xff#64).getLsbD i = false := by
      rw [BitVec.getLsbD_ofNat, Nat.testBit_lt_two_pow, Bool.and_false]
      exact lt_of_lt_of_le (by norm_num : (0xff : ℕ) < 2 ^ 8)
        (Nat.pow_le_pow_right (by norm_num) (by omega))
    rw [zero, decide_eq_false low]

/-- The bits of the lane come from the byte, all others from the word. -/
theorem getLsbD_setByte (w : Word) (lane : ℕ) (v : UInt8) {i : ℕ}
    (inside : i < 64) :
    (setByte w lane v).getLsbD i =
      if 8 * lane ≤ i ∧ i < 8 * lane + 8 then v.toBitVec.getLsbD (i - 8 * lane)
      else w.getLsbD i := by
  simp only [setByte, BitVec.getLsbD_or, BitVec.getLsbD_and, BitVec.getLsbD_not,
    BitVec.getLsbD_shiftLeft, BitVec.getLsbD_setWidth, getLsbD_ff, inside, decide_true,
    Bool.true_and]
  split_ifs with lane_bit
  · have shifted : ¬ i < 8 * lane ∧ i - 8 * lane < 8 ∧ i - 8 * lane < 64 := by omega
    simp [shifted]
  · by_cases below : i < 8 * lane
    · simp [below]
    · have above : ¬ i - 8 * lane < 8 := by omega
      have zero : v.toBitVec.getLsbD (i - 8 * lane) = false :=
        BitVec.getLsbD_of_ge _ _ (by omega)
      simp [above, zero]

theorem getLsbD_getByte (w : Word) (lane : ℕ) {i : ℕ} (inside : i < 8) :
    (getByte w lane).toBitVec.getLsbD i = w.getLsbD (8 * lane + i) := by
  simp [getByte, inside]

@[simp] theorem getByte_zero (lane : ℕ) : getByte 0 lane = 0 := by
  apply UInt8.eq_of_toBitVec_eq
  simp [getByte]

@[simp] theorem getByte_setByte (w : Word) {lane : ℕ} (low : lane < 8) (v : UInt8) :
    getByte (setByte w lane v) lane = v := by
  apply UInt8.eq_of_toBitVec_eq
  apply BitVec.eq_of_getLsbD_eq
  intro i hi
  rw [getLsbD_getByte _ _ hi, getLsbD_setByte w _ v (by omega), if_pos (by omega),
    Nat.add_sub_cancel_left]

/-- A lane keeps its byte when another one is set. -/
theorem getByte_setByte_ne (w : Word) {lane other : ℕ} (low : other < 8)
    (apart : other ≠ lane) (v : UInt8) : getByte (setByte w lane v) other = getByte w other := by
  apply UInt8.eq_of_toBitVec_eq
  apply BitVec.eq_of_getLsbD_eq
  intro i hi
  rw [getLsbD_getByte _ _ hi, getLsbD_getByte _ _ hi, getLsbD_setByte w _ v (by omega),
    if_neg (by omega)]

/-- A word is its lanes. -/
theorem eq_of_getByte {w w' : Word} {k : ℕ}
    (same : ∀ lane < k, getByte w lane = getByte w' lane) :
    w.setWidth (8 * k) = w'.setWidth (8 * k) := by
  apply BitVec.eq_of_getLsbD_eq
  intro i hi
  have lane := congrArg (fun v => v.toBitVec.getLsbD (i % 8)) (same (i / 8) (by omega))
  have below : i % 8 < 8 := Nat.mod_lt _ (by norm_num)
  simp only [getLsbD_getByte _ _ below, Nat.div_add_mod] at lane
  rw [BitVec.getLsbD_setWidth, BitVec.getLsbD_setWidth, lane]

/-- The bits below a lane stay when the lane is set. -/
theorem setWidth_setByte (w : Word) {lane k : ℕ} (below : k ≤ 8 * lane) (v : UInt8)
    (short : k ≤ 64) : (setByte w lane v).setWidth k = w.setWidth k := by
  apply BitVec.eq_of_getLsbD_eq
  intro i hi
  rw [BitVec.getLsbD_setWidth, BitVec.getLsbD_setWidth, getLsbD_setByte w lane v (by omega),
    if_neg (by omega)]

end Lanes

section Memory

variable (m : ℕ → Word)

/-- The byte at a byte address of a memory of words. -/
def load (a : ℕ) : UInt8 := getByte (m (a / 8)) (a % 8)

def store (a : ℕ) (v : UInt8) : ℕ → Word :=
  Function.update m (a / 8) (setByte (m (a / 8)) (a % 8) v)

@[simp] theorem load_store (a : ℕ) (v : UInt8) : load (store m a v) a = v := by
  rw [load, store, Function.update_self, getByte_setByte _ (Nat.mod_lt _ (by norm_num))]

theorem load_store_ne {a b : ℕ} (apart : b ≠ a) (v : UInt8) :
    load (store m a v) b = load m b := by
  by_cases same : b / 8 = a / 8
  · have lanes : b % 8 ≠ a % 8 := by omega
    rw [load, store, same, Function.update_self, getByte_setByte_ne _
      (Nat.mod_lt _ (by norm_num)) lanes, load, same]
  · rw [load, store, Function.update_of_ne same, load]

theorem store_of_ne {a k : ℕ} (apart : k ≠ a / 8) (v : UInt8) : store m a v k = m k :=
  Function.update_of_ne apart _ _

/-- The bytes at consecutive addresses. -/
def loadBytes : ℕ → ℕ → List UInt8
  | _, 0 => []
  | a, n + 1 => load m a :: loadBytes (a + 1) n

/-- The bytes of a list are stored at consecutive addresses. -/
def storeBytes : (ℕ → Word) → ℕ → List UInt8 → ℕ → Word
  | m, _, [] => m
  | m, a, v :: rest => storeBytes (store m a v) (a + 1) rest

theorem storeBytes_append (a : ℕ) (xs ys : List UInt8) :
    storeBytes m a (xs ++ ys) = storeBytes (storeBytes m a xs) (a + xs.length) ys := by
  induction xs generalizing m a with
  | nil => rfl
  | cons x xs ih =>
    rw [List.cons_append, storeBytes, ih, storeBytes, List.length_cons,
      show a + 1 + xs.length = a + (xs.length + 1) by omega]

theorem load_storeBytes_of_lt {a b : ℕ} (below : b < a) (xs : List UInt8) :
    load (storeBytes m a xs) b = load m b := by
  induction xs generalizing m a with
  | nil => rfl
  | cons x xs ih => rw [storeBytes, ih _ (by omega), load_store_ne _ (by omega)]

/-- What was stored is loaded. -/
@[simp] theorem loadBytes_storeBytes (a : ℕ) (xs : List UInt8) :
    loadBytes (storeBytes m a xs) a xs.length = xs := by
  induction xs generalizing m a with
  | nil => rfl
  | cons x xs ih =>
    rw [storeBytes, List.length_cons, loadBytes, load_storeBytes_of_lt _ (by omega), load_store,
      ih]

/-- Only the words that hold one of the stored bytes change. -/
theorem storeBytes_of_not_mem {a k : ℕ} {xs : List UInt8}
    (outside : ∀ i < xs.length, k ≠ (a + i) / 8) : storeBytes m a xs k = m k := by
  induction xs generalizing m a with
  | nil => rfl
  | cons x xs ih =>
    have first : k ≠ a / 8 := outside 0 (by simp)
    rw [storeBytes, ih _ fun i less => ?_, store_of_ne _ first]
    rw [show a + 1 + i = a + (i + 1) by omega]
    exact outside (i + 1) (by simpa using less)

/-- The bits below the first stored byte stay. -/
theorem setWidth_storeBytes {a k : ℕ} (lane : ℕ) (low : lane ≤ 8) (below : 8 * k + lane ≤ a)
    (xs : List UInt8) :
    (storeBytes m a xs k).setWidth (8 * lane) = (m k).setWidth (8 * lane) := by
  induction xs generalizing m a with
  | nil => rfl
  | cons x xs ih =>
    rw [storeBytes, ih _ (by omega), store]
    by_cases same : k = a / 8
    · rw [← same, Function.update_self, setWidth_setByte _ (by omega) _ (by omega)]
    · rw [Function.update_of_ne same]

theorem length_loadBytes (a n : ℕ) : (loadBytes m a n).length = n := by
  induction n generalizing a with
  | zero => rfl
  | succ n ih => rw [loadBytes, List.length_cons, ih]

theorem loadBytes_append (a k n : ℕ) :
    loadBytes m a (k + n) = loadBytes m a k ++ loadBytes m (a + k) n := by
  induction k generalizing a with
  | zero => rw [Nat.zero_add]; rfl
  | succ k ih =>
    rw [show k + 1 + n = k + n + 1 by omega, loadBytes, loadBytes, ih, List.cons_append,
      show a + 1 + k = a + (k + 1) by omega]

/-- Loading depends on the bytes at the addresses only. -/
theorem loadBytes_congr {m' : ℕ → Word} {a n : ℕ}
    (same : ∀ i < n, load m (a + i) = load m' (a + i)) : loadBytes m a n = loadBytes m' a n := by
  induction n generalizing a with
  | zero => rfl
  | succ n ih =>
    have first : load m a = load m' a := same 0 (by omega)
    rw [loadBytes, loadBytes, first, ih fun i less => ?_]
    rw [show a + 1 + i = a + (i + 1) by omega]
    exact same (i + 1) (by omega)

theorem loadBytes_zero {a n : ℕ} (zero : ∀ i < n, load m (a + i) = 0) :
    loadBytes m a n = List.replicate n 0 := by
  induction n generalizing a with
  | zero => rfl
  | succ n ih =>
    have first : load m a = 0 := zero 0 (by omega)
    rw [loadBytes, first, ih fun i less => ?_, List.replicate_succ]
    rw [show a + 1 + i = a + (i + 1) by omega]
    exact zero (i + 1) (by omega)

end Memory

end Epilog.Lib.ByteLanes
