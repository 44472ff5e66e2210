/- Module: Epilog/Pow/Detector
   source: src/src/pow/dipper_detector.cpp, src/src/pow/dipper_detector.hpp
   digest: The search for a dipper among the projected stars, against the check of its geometry. -/

import Epilog.Pow.Dipper
import Mathlib.Data.Fintype.Basic
import Mathlib.Data.List.OfFn

set_option autoImplicit false

namespace Epilog.Pow.Detector

open Dipper

section Search

/-- `projected_star`, on the screen -/
structure ProjectedStar where
  id : UInt32
  x : Fin 4096
  y : Fin 4096
  r : UInt32
  deriving DecidableEq

def GRID_SIZE : ℕ := 32

/-- The width of the screen, and its height -/
def SCREEN_SIZE : ℕ := 4096

/-- `to_grid_x` and `to_grid_y` -/
def toGrid (v : ℕ) : ℕ := v * GRID_SIZE / SCREEN_SIZE

/-- `sorted_`: the stars of each cell of the grid -/
abbrev Buckets := ℕ → ℕ → List ProjectedStar

def Buckets.push (sorted : Buckets) (s : ProjectedStar) : Buckets := fun gx gy =>
  if gx = toGrid s.x ∧ gy = toGrid s.y then sorted gx gy ++ [s] else sorted gx gy

def sort (stars : List ProjectedStar) : Buckets :=
  stars.foldl Buckets.push fun _ _ => []

/-- The values that `dx` takes in the loop of `find_star`, at most `n` of them -/
def stepsLoop : ℕ → ℤ → ℤ → List ℤ
  | 0, _, _ => []
  | n + 1, dx, dx2 => if dx < dx2 then dx :: stepsLoop n (dx + GRID_SIZE) dx2 else []

def steps (dx1 dx2 : ℤ) : List ℤ := stepsLoop (dx2 - dx1).toNat dx1 dx2

/-- The comparison of `find_star`, whose sums and products wrap -/
def near (dx0 dy0 r2 : ℤ) (s : ProjectedStar) : Bool :=
  int32 (100 * int32 ((s.x - dx0) * (s.x - dx0) + (s.y - dy0) * (s.y - dy0))) ≤ r2

def onScreen (d : ℤ) : Prop := 0 ≤ d ∧ d < SCREEN_SIZE

instance (d : ℤ) : Decidable (onScreen d) := inferInstanceAs (Decidable (_ ∧ _))

/-- The window around a coordinate: the first step, and the end that no step reaches -/
def windowStart (d0 tol : ℤ) : ℤ := (d0 * 100 - tol).tdiv 100

def windowEnd (d0 tol : ℤ) : ℤ := (d0 * 100 + tol).tdiv 100

def findStar (sorted : Buckets) (dx0 dy0 tol : ℤ) : Option ProjectedStar :=
  (steps (windowStart dx0 tol) (windowEnd dx0 tol)).findSome? fun dx =>
    (steps (windowStart dy0 tol) (windowEnd dy0 tol)).findSome? fun dy =>
      if onScreen dx ∧ onScreen dy then
        (sorted (toGrid dx.toNat) (toGrid dy.toNat)).find? (near dx0 dy0 ((tol * tol).tdiv 100))
      else none

section Frame

variable (si sj : ProjectedStar)

def dl12 : ℤ := isqrt (dx12 * dx12 + dy12 * dy12)

def dxij : ℤ := sj.x - si.x

def dyij : ℤ := sj.y - si.y

def dlij2 : ℤ := dxij si sj * dxij si sj + dyij si sj * dyij si sj

/-- `R_00` and `R_11` -/
def r00 : ℤ := (dx12 * dxij si sj + dy12 * dyij si sj).tdiv dl12

/-- `R_01`, of which `R_10` is the negative -/
def r01 : ℤ := (dy12 * dxij si sj - dx12 * dyij si sj).tdiv dl12

def tol : ℤ := (TOLERANCE * isqrt (dlij2 si sj)).tdiv dl12

/-- The place of a star of the dipper, with the first two stars seen at `si` and `sj` -/
def placeX (k : Fin 7) : ℤ := (r00 si sj * dipperDx k + r01 si sj * dipperDy k).tdiv dl12 + si.x

def placeY (k : Fin 7) : ℤ := (-r01 si sj * dipperDx k + r00 si sj * dipperDy k).tdiv dl12 + si.y

end Frame

/-- The loop over the other stars of the dipper, which ends at the first that is not found -/
def findRest (sorted : Buckets) (si sj : ProjectedStar) :
    List (Fin 7) → Option (List ProjectedStar)
  | [] => some []
  | k :: rest =>
    match findStar sorted (placeX si sj k) (placeY si sj k) (tol si sj) with
    | none => none
    | some s => (findRest sorted si sj rest).map (s :: ·)

/-- `found1`, if the two stars lead to a constellation -/
def constellation (sorted : Buckets) (si sj : ProjectedStar) : Option (List ProjectedStar) :=
  if dlij2 si sj < 5 * 5 then none
  else (findRest sorted si sj [2, 3, 4, 5, 6]).map fun rest => si :: sj :: rest

structure Search where
  found : List (List ProjectedStar)
  success : Bool

/-- One round of the two loops -/
def tryPair (sorted : Buckets) (n : ℕ) (si sj : ProjectedStar) (state : Search) : Search :=
  match constellation sorted si sj with
  | none => state
  | some found1 => ⟨state.found ++ [found1], ¬ state.found.length + 1 < n⟩

/-- The rounds of the two loops, which end at the first success -/
def rounds (sorted : Buckets) (n : ℕ) : List (ProjectedStar × ProjectedStar) → Search → Search
  | [], state => state
  | pair :: rest, state =>
    if state.success then state
    else rounds sorted n rest (tryPair sorted n pair.1 pair.2 state)

/-- The pairs of two stars with different indices, in the order of the two loops -/
def pairs (stars : List ProjectedStar) : List (ProjectedStar × ProjectedStar) :=
  stars.zipIdx.flatMap fun i =>
    stars.zipIdx.filterMap fun j => if i.2 = j.2 then none else some (i.1, j.1)

def searchN (stars : List ProjectedStar) (found : List (List ProjectedStar)) (n : ℕ) : Search :=
  rounds (sort stars) n (pairs stars) ⟨found, false⟩

end Search

section Buckets

theorem mem_sort {stars : List ProjectedStar} {s : ProjectedStar} {gx gy : ℕ} :
    s ∈ sort stars gx gy ↔ s ∈ stars ∧ gx = toGrid s.x ∧ gy = toGrid s.y := by
  have pushed : ∀ (rest : List ProjectedStar) (sorted : Buckets),
      s ∈ rest.foldl Buckets.push sorted gx gy ↔
        s ∈ sorted gx gy ∨ s ∈ rest ∧ gx = toGrid s.x ∧ gy = toGrid s.y := by
    intro rest
    induction rest with
    | nil => simp
    | cons first rest ih =>
      intro sorted
      have pushOne : s ∈ sorted.push first gx gy ↔
          s ∈ sorted gx gy ∨ s = first ∧ gx = toGrid s.x ∧ gy = toGrid s.y := by
        unfold Buckets.push
        split
        · next here =>
          rw [List.mem_append, List.mem_singleton]
          constructor
          · rintro (old | rfl)
            · exact Or.inl old
            · exact Or.inr ⟨rfl, here⟩
          · rintro (old | ⟨rfl, _⟩)
            · exact Or.inl old
            · exact Or.inr rfl
        · next elsewhere =>
          constructor
          · exact Or.inl
          · rintro (old | ⟨rfl, here⟩)
            · exact old
            · exact absurd here elsewhere
      rw [List.foldl_cons, ih, pushOne, List.mem_cons]
      tauto
  rw [sort, pushed]
  simp

end Buckets

section Windows

theorem mem_stepsLoop {n : ℕ} {dx1 dx2 d : ℤ} (enough : dx2 - dx1 ≤ n) :
    d ∈ stepsLoop n dx1 dx2 ↔ d < dx2 ∧ ∃ a : ℕ, d = dx1 + 32 * a := by
  have step : (GRID_SIZE : ℤ) = 32 := rfl
  induction n generalizing dx1 with
  | zero =>
    rw [stepsLoop]
    refine iff_of_false List.not_mem_nil ?_
    rintro ⟨before, a, rfl⟩
    omega
  | succ n ih =>
    rw [stepsLoop, step]
    split
    · have later : d ∈ stepsLoop n (dx1 + 32) dx2 ↔ d < dx2 ∧ ∃ a : ℕ, d = dx1 + 32 + 32 * a :=
        ih (by omega)
      rw [List.mem_cons, later]
      constructor
      · rintro (rfl | ⟨before, a, rfl⟩)
        · exact ⟨by assumption, 0, by omega⟩
        · exact ⟨before, a + 1, by omega⟩
      · rintro ⟨before, a, rfl⟩
        cases a with
        | zero => exact Or.inl (by omega)
        | succ a => exact Or.inr ⟨before, a, by omega⟩
    · next empty =>
      refine iff_of_false List.not_mem_nil ?_
      rintro ⟨before, a, rfl⟩
      omega

theorem mem_steps {dx1 dx2 d : ℤ} :
    d ∈ steps dx1 dx2 ↔ d < dx2 ∧ ∃ a : ℕ, d = dx1 + 32 * a :=
  mem_stepsLoop (by omega)

/-- The left edge of the cell of the grid in which a coordinate lies -/
def cellStart (v : Fin 4096) : ℤ := 128 * (v / 128 : ℕ)

/-- The first step of a window at or after the edge of a cell -/
def firstStep (start edge : ℤ) : ℤ := start + 32 * ((max 0 (edge - start) + 31) / 32)

/-- A window has a step in the cell in which a coordinate lies. -/
def Covers (start end_ : ℤ) (v : Fin 4096) : Prop :=
  firstStep start (cellStart v) < end_ ∧ firstStep start (cellStart v) < cellStart v + 128

theorem covers_iff {start end_ : ℤ} {v : Fin 4096} :
    Covers start end_ v ↔
      ∃ d ∈ steps start end_, onScreen d ∧ toGrid d.toNat = toGrid v := by
  have onScreenV := v.isLt
  have cell : ∀ u : ℕ, toGrid u = u / 128 := by
    intro u
    rw [toGrid, GRID_SIZE, SCREEN_SIZE]
    omega
  have size : (SCREEN_SIZE : ℤ) = 4096 := rfl
  unfold Covers firstStep cellStart onScreen
  constructor
  · rintro ⟨inside, inCell⟩
    refine ⟨_, mem_steps.2 ⟨inside, ((max 0 (128 * (v / 128 : ℕ) - start) + 31) / 32).toNat, ?_⟩,
      ?_, ?_⟩
    · omega
    · omega
    · rw [cell, cell]
      omega
  · rintro ⟨d, visited, _, sameCell⟩
    obtain ⟨before, a, rfl⟩ := mem_steps.1 visited
    rw [cell, cell] at sameCell
    omega

end Windows

section Finding

variable {stars : List ProjectedStar} {dx0 dy0 tol : ℤ} {s : ProjectedStar}

theorem findStar_sound (found : findStar (sort stars) dx0 dy0 tol = some s) :
    s ∈ stars ∧ near dx0 dy0 ((tol * tol).tdiv 100) s = true := by
  obtain ⟨dx, _, alongY⟩ := List.exists_of_findSome?_eq_some found
  obtain ⟨dy, _, inCell⟩ := List.exists_of_findSome?_eq_some alongY
  split at inCell
  · exact ⟨(mem_sort.1 (List.mem_of_find?_eq_some inCell)).1, List.find?_some inCell⟩
  · cases inCell

theorem findStar_isSome_iff :
    (findStar (sort stars) dx0 dy0 tol).isSome = true ↔
      ∃ s ∈ stars, near dx0 dy0 ((tol * tol).tdiv 100) s = true ∧
        Covers (windowStart dx0 tol) (windowEnd dx0 tol) s.x ∧
        Covers (windowStart dy0 tol) (windowEnd dy0 tol) s.y := by
  rw [findStar, List.findSome?_isSome_iff]
  constructor
  · rintro ⟨dx, stepX, alongY⟩
    obtain ⟨dy, stepY, inCell⟩ := List.findSome?_isSome_iff.1 alongY
    split at inCell
    · next inside =>
      obtain ⟨s, among, close⟩ := List.find?_isSome.1 inCell
      obtain ⟨listed, cellX, cellY⟩ := mem_sort.1 among
      exact ⟨s, listed, close, covers_iff.2 ⟨dx, stepX, inside.1, cellX⟩,
        covers_iff.2 ⟨dy, stepY, inside.2, cellY⟩⟩
    · cases inCell
  · rintro ⟨s, listed, close, coversX, coversY⟩
    obtain ⟨dx, stepX, insideX, cellX⟩ := covers_iff.1 coversX
    obtain ⟨dy, stepY, insideY, cellY⟩ := covers_iff.1 coversY
    refine ⟨dx, stepX, List.findSome?_isSome_iff.2 ⟨dy, stepY, ?_⟩⟩
    rw [if_pos ⟨insideX, insideY⟩]
    exact List.find?_isSome.2 ⟨s, mem_sort.2 ⟨listed, cellX, cellY⟩, close⟩

end Finding

section Constellations

variable {stars : List ProjectedStar} {si sj : ProjectedStar}

/-- The comparison of `find_star` for a star at the place of the star `k` of the dipper -/
def Fits (si sj : ProjectedStar) (k : Fin 7) (s : ProjectedStar) : Prop :=
  near (placeX si sj k) (placeY si sj k) ((tol si sj * tol si sj).tdiv 100) s = true

/-- The window around the place of the star `k` of the dipper has a step in the cell of a star. -/
def Visits (si sj : ProjectedStar) (k : Fin 7) (s : ProjectedStar) : Prop :=
  Covers (windowStart (placeX si sj k) (tol si sj)) (windowEnd (placeX si sj k) (tol si sj)) s.x ∧
    Covers (windowStart (placeY si sj k) (tol si sj)) (windowEnd (placeY si sj k) (tol si sj)) s.y

theorem findRest_sound {ks : List (Fin 7)} {rest : List ProjectedStar}
    (found : findRest (sort stars) si sj ks = some rest) :
    List.Forall₂ (fun k s => s ∈ stars ∧ Fits si sj k s) ks rest := by
  induction ks generalizing rest with
  | nil =>
    rw [findRest, Option.some_inj] at found
    subst found
    exact List.Forall₂.nil
  | cons k ks ih =>
    rw [findRest] at found
    split at found
    · cases found
    · next s here =>
      obtain ⟨others, foundOthers, rfl⟩ := Option.map_eq_some_iff.1 found
      exact List.Forall₂.cons (findStar_sound here) (ih foundOthers)

theorem findRest_isSome_iff {ks : List (Fin 7)} :
    (findRest (sort stars) si sj ks).isSome = true ↔
      ∀ k ∈ ks, ∃ s ∈ stars, Fits si sj k s ∧ Visits si sj k s := by
  induction ks with
  | nil => simp [findRest]
  | cons k ks ih =>
    have here : (findStar (sort stars) (placeX si sj k) (placeY si sj k) (tol si sj)).isSome =
        true ↔ ∃ s ∈ stars, Fits si sj k s ∧ Visits si sj k s := findStar_isSome_iff
    rw [findRest, List.forall_mem_cons, ← ih]
    refine Iff.trans ?_ (and_congr_left' here)
    cases findStar (sort stars) (placeX si sj k) (placeY si sj k) (tol si sj) with
    | none => simp
    | some s => simp

/-- The places on the screen of seven stars -/
def seen (c : Fin 7 → ProjectedStar) : Stars := fun i => ((c i).x, (c i).y)

theorem isDipper_seen {c : Fin 7 → ProjectedStar} :
    (seen c).isDipper = true ↔
      5 * 5 ≤ dlij2 (c 0) (c 1) ∧ ∀ k, 2 ≤ k → Fits (c 0) (c 1) k (c k) := by
  rw [Stars.isDipper, decide_eq_true_iff]
  refine and_congr Iff.rfl (forall_congr' fun k => imp_congr_right fun _ => ?_)
  rw [Fits, near, decide_eq_true_iff]
  exact Iff.rfl

theorem others_from (k : Fin 7) : k ∈ ([2, 3, 4, 5, 6] : List (Fin 7)) ↔ 2 ≤ k := by
  revert k
  decide

theorem constellation_sound {found1 : List ProjectedStar}
    (found : constellation (sort stars) si sj = some found1) (first : si ∈ stars)
    (second : sj ∈ stars) :
    ∃ c : Fin 7 → ProjectedStar,
      found1 = List.ofFn c ∧ (∀ i, c i ∈ stars) ∧ (seen c).isDipper = true := by
  unfold constellation at found
  split at found
  · cases found
  · next apart =>
    obtain ⟨rest, foundRest, rfl⟩ := Option.map_eq_some_iff.1 found
    have placed := findRest_sound foundRest
    -- the five stars of the rest, one by one
    obtain _ | ⟨⟨in2, fits2⟩, _ | ⟨⟨in3, fits3⟩, _ | ⟨⟨in4, fits4⟩, _ | ⟨⟨in5, fits5⟩,
      _ | ⟨⟨in6, fits6⟩, ⟨⟩⟩⟩⟩⟩⟩ := placed
    next s2 s3 s4 s5 s6 =>
    refine ⟨![si, sj, s2, s3, s4, s5, s6], by simp [List.ofFn_succ], ?_, ?_⟩
    · intro i
      fin_cases i
      exacts [first, second, in2, in3, in4, in5, in6]
    · refine isDipper_seen.2 ⟨not_lt.1 apart, fun k from2 => ?_⟩
      fin_cases k
      · exact absurd from2 (by decide)
      · exact absurd from2 (by decide)
      exacts [fits2, fits3, fits4, fits5, fits6]

theorem constellation_isSome_iff :
    (constellation (sort stars) si sj).isSome = true ↔
      5 * 5 ≤ dlij2 si sj ∧ ∀ k, 2 ≤ k → ∃ s ∈ stars, Fits si sj k s ∧ Visits si sj k s := by
  unfold constellation
  split
  · next close => exact iff_of_false Bool.false_ne_true fun ⟨apart, _⟩ => not_lt.2 apart close
  · next apart =>
    rw [Option.isSome_map, findRest_isSome_iff]
    refine Iff.trans ?_ (and_iff_right (not_lt.1 apart)).symm
    exact forall_congr' fun k => imp_congr_left (others_from k)

end Constellations

section Rounds

variable {sorted : Buckets} {n : ℕ}

variable (sorted n) in
theorem tryPair_found (si sj : ProjectedStar) (state : Search) :
    ∃ new, (tryPair sorted n si sj state).found = state.found ++ new ∧
      ∀ f ∈ new, constellation sorted si sj = some f := by
  unfold tryPair
  split
  · exact ⟨[], (List.append_nil _).symm, fun f none => absurd none List.not_mem_nil⟩
  · next found1 here => exact ⟨[found1], rfl, fun f one => List.mem_singleton.1 one ▸ here⟩

variable (sorted n) in
theorem rounds_found (ps : List (ProjectedStar × ProjectedStar)) (state : Search) :
    ∃ new, (rounds sorted n ps state).found = state.found ++ new ∧
      ∀ f ∈ new, ∃ pair ∈ ps, constellation sorted pair.1 pair.2 = some f := by
  induction ps generalizing state with
  | nil => exact ⟨[], (List.append_nil _).symm, fun f none => absurd none List.not_mem_nil⟩
  | cons pair ps ih =>
    rw [rounds]
    split
    · exact ⟨[], (List.append_nil _).symm, fun f none => absurd none List.not_mem_nil⟩
    · obtain ⟨one, foundOne, fromPair⟩ := tryPair_found sorted n pair.1 pair.2 state
      obtain ⟨new, foundNew, fromRest⟩ := ih (tryPair sorted n pair.1 pair.2 state)
      refine ⟨one ++ new, by rw [foundNew, foundOne, List.append_assoc], fun f among => ?_⟩
      obtain here | later := List.mem_append.1 among
      · exact ⟨pair, List.mem_cons_self, fromPair f here⟩
      · obtain ⟨other, listed, leads⟩ := fromRest f later
        exact ⟨other, List.mem_cons_of_mem _ listed, leads⟩

theorem rounds_done (ps : List (ProjectedStar × ProjectedStar))
    (found : List (List ProjectedStar)) :
    rounds sorted n ps ⟨found, true⟩ = ⟨found, true⟩ := by
  cases ps with
  | nil => rfl
  | cons pair ps => rfl

theorem rounds_one (ps : List (ProjectedStar × ProjectedStar))
    (found : List (List ProjectedStar)) :
    (∃ f, rounds sorted 1 ps ⟨found, false⟩ = ⟨found ++ [f], true⟩) ↔
      ∃ pair ∈ ps, (constellation sorted pair.1 pair.2).isSome = true := by
  induction ps with
  | nil =>
    refine iff_of_false ?_ ?_
    · rintro ⟨f, ended⟩
      exact Bool.false_ne_true (congrArg Search.success ended)
    · rintro ⟨pair, none, _⟩
      exact List.not_mem_nil none
  | cons pair ps ih =>
    rw [rounds, if_neg Bool.false_ne_true, List.exists_mem_cons_iff, tryPair]
    split
    · next missed =>
      rw [ih, missed]
      exact (or_iff_right Bool.false_ne_true).symm
    · next found1 here =>
      have enough : decide ¬ found.length + 1 < 1 = true := by simp
      rw [enough, rounds_done, here]
      exact iff_of_true ⟨found1, rfl⟩ (Or.inl rfl)

end Rounds

section Agreement

variable {stars : List ProjectedStar}

theorem mem_pairs {pair : ProjectedStar × ProjectedStar} (listed : pair ∈ pairs stars) :
    pair.1 ∈ stars ∧ pair.2 ∈ stars := by
  obtain ⟨i, hasI, rest⟩ := List.mem_flatMap.1 listed
  obtain ⟨j, hasJ, made⟩ := List.mem_filterMap.1 rest
  split at made
  · cases made
  · cases made
    exact ⟨List.fst_mem_of_mem_zipIdx hasI, List.fst_mem_of_mem_zipIdx hasJ⟩

theorem pairs_of_apart {si sj : ProjectedStar} (hasI : si ∈ stars) (hasJ : sj ∈ stars)
    (apart : 5 * 5 ≤ dlij2 si sj) : (si, sj) ∈ pairs stars := by
  obtain ⟨i, insideI, rfl⟩ := List.getElem_of_mem hasI
  obtain ⟨j, insideJ, rfl⟩ := List.getElem_of_mem hasJ
  refine List.mem_flatMap.2 ⟨(stars[i], i), List.mk_mem_zipIdx_iff_getElem?.2
    (List.getElem?_eq_getElem insideI), List.mem_filterMap.2 ⟨(stars[j], j),
    List.mk_mem_zipIdx_iff_getElem?.2 (List.getElem?_eq_getElem insideJ), if_neg ?_⟩⟩
  rintro same
  have together : dlij2 stars[i] stars[j] = 0 := by
    change i = j at same
    subst same
    simp [dlij2, dxij, dyij]
  rw [together] at apart
  exact absurd apart (by decide)

/-- Seven stars of the list, in an order, that pass the check of a row -/
def Passes (stars : List ProjectedStar) (c : Fin 7 → ProjectedStar) : Prop :=
  (∀ i, c i ∈ stars) ∧ (seen c).isDipper = true

/-- Whatever the search adds passes the check, and where some choice passes, the search for one
constellation succeeds. -/
def Agree (stars : List ProjectedStar) : Prop :=
  (∀ found n, ∃ new, (searchN stars found n).found = found ++ new ∧
    ∀ f ∈ new, ∃ c, f = List.ofFn c ∧ Passes stars c) ∧
  ((∃ c, Passes stars c) → ∀ found, ∃ f, searchN stars found 1 = ⟨found ++ [f], true⟩)

/-- If some choice passes the check, then one does for which the five windows have a step in the
cells of their stars. -/
def Reached (stars : List ProjectedStar) : Prop :=
  (∃ c, Passes stars c) → ∃ c, Passes stars c ∧ ∀ k, 2 ≤ k → Visits (c 0) (c 1) k (c k)

theorem searchN_sound (found : List (List ProjectedStar)) (n : ℕ) :
    ∃ new, (searchN stars found n).found = found ++ new ∧
      ∀ f ∈ new, ∃ c, f = List.ofFn c ∧ Passes stars c := by
  obtain ⟨new, added, leads⟩ := rounds_found (sort stars) n (pairs stars) ⟨found, false⟩
  refine ⟨new, added, fun f among => ?_⟩
  obtain ⟨pair, listed, made⟩ := leads f among
  obtain ⟨first, second⟩ := mem_pairs listed
  exact constellation_sound made first second

theorem searchN_one_iff (found : List (List ProjectedStar)) :
    (∃ f, searchN stars found 1 = ⟨found ++ [f], true⟩) ↔
      ∃ c, Passes stars c ∧ ∀ k, 2 ≤ k → Visits (c 0) (c 1) k (c k) := by
  unfold searchN
  rw [rounds_one]
  constructor
  · rintro ⟨pair, listed, leads⟩
    obtain ⟨first, second⟩ := mem_pairs listed
    obtain ⟨apart, others⟩ := constellation_isSome_iff.1 leads
    choose other isStar fits visits using others
    let c : Fin 7 → ProjectedStar := fun i =>
      if from2 : 2 ≤ i then other i from2 else if i = 0 then pair.1 else pair.2
    have later : ∀ i (from2 : 2 ≤ i), c i = other i from2 := fun i from2 => dif_pos from2
    refine ⟨c, ⟨fun i => ?_, isDipper_seen.2 ⟨apart, fun k from2 => ?_⟩⟩, fun k from2 => ?_⟩
    · by_cases from2 : 2 ≤ i
      · rw [later i from2]
        exact isStar i from2
      · by_cases zero : i = 0
        · simpa [c, from2, zero] using first
        · simpa [c, from2, zero] using second
    · rw [later k from2]
      exact fits k from2
    · rw [later k from2]
      exact visits k from2
  · rintro ⟨c, ⟨isStar, passes⟩, visits⟩
    obtain ⟨apart, fits⟩ := isDipper_seen.1 passes
    refine ⟨(c 0, c 1), pairs_of_apart (isStar 0) (isStar 1) apart,
      constellation_isSome_iff.2 ⟨apart, fun k from2 => ?_⟩⟩
    exact ⟨c k, isStar k, fits k from2, visits k from2⟩

/-- Search and check agree exactly on the lists where a choice that passes is reached, if one
passes at all. -/
theorem detector_agrees_iff (stars : List ProjectedStar) : Agree stars ↔ Reached stars := by
  constructor
  · rintro ⟨_, complete⟩ some_
    exact (searchN_one_iff []).1 (complete some_ [])
  · intro reached
    exact ⟨searchN_sound, fun some_ found => (searchN_one_iff found).2 (reached some_)⟩

/-- Seven stars at their very places, with the third beyond the edge of a cell: its window starts
before the edge and ends with it. -/
def acrossEdge : Fin 7 → ProjectedStar :=
  ![⟨1, 122, 1000, 1⟩, ⟨2, 127, 1000, 1⟩, ⟨3, 128, 999, 1⟩, ⟨4, 132, 998, 1⟩, ⟨5, 132, 995, 1⟩,
    ⟨6, 137, 994, 1⟩, ⟨7, 138, 997, 1⟩]

theorem edge_missed : ¬ Agree (List.ofFn acrossEdge) := by
  rintro ⟨_, complete⟩
  have passes : Passes (List.ofFn acrossEdge) acrossEdge :=
    ⟨fun i => List.mem_ofFn.2 ⟨i, rfl⟩, by decide⟩
  obtain ⟨f, found⟩ := complete ⟨acrossEdge, passes⟩ []
  have failed : (searchN (List.ofFn acrossEdge) [] 1).success = false := by decide
  rw [found] at failed
  cases failed

end Agreement

end Epilog.Pow.Detector
