/- Module: Epilog/Common/Placement
   source: src/src/common/term_serializer.cpp (read)
   digest: Where the reader puts the cells of a buffer, and what it writes there. -/

import Epilog.Common.Deserializer
import Epilog.Lib.Run

set_option autoImplicit false

namespace Epilog.Common.Placement

open Epilog.Common.Term Epilog.Common.Heap Epilog.Common.Deserializer
  Epilog.Lib.FiniteMap Epilog.Lib.Run

section Layout

variable (termIndex : TermIndex) (oldHdr : ℕ)

/-- A pointer whose index does not lie in the header of the buffer is patched. -/
def needsPatch (c : Cell) : Bool :=
  (c.tag = .REF ∨ c.tag = .RFW ∨ c.tag = .BIG ∨ c.tag = .STR) ∧ oldHdr ≤ c.index

/-- The tag after `unwatch` -/
def plainTag (c : Cell) : Tag := if c.tag = .RFW then .REF else c.tag

/-- What the loop of `read` writes for a tagged cell of the buffer. -/
def newCell (c : Cell) : Cell :=
  match c.tag with
  | .CON =>
    if c.isDirect then c else Cell.conOfIndex ((termIndex.lookup c.toAtom).getD 0) c.arity
  | .INT => c
  | .DAT => c
  | .FWD => c
  | _ =>
    if c.index < oldHdr then
      Cell.make (plainTag c) ((termIndex.lookup (Cell.make (plainTag c) c.index)).getD 0)
    else Cell.make (plainTag c) (c.index - oldHdr)

/-- The cells that `new_cell0` wants in one block. -/
def room (c : Cell) : ℕ := if c.tag = .CON then 1 + c.arity else 1

/-- The cells after a data header that hold its bits. -/
def payload (c : Cell) : ℕ := if c.tag = .DAT then c.numCells - 1 else 0

/-- A cell of the buffer with its address in the heap; `data` marks the bits of a bignum. -/
structure Place where
  source : Cell
  addr : ℕ
  data : Bool

/-- A forwarding cell gets no cell of its own. -/
def Place.isWritten (p : Place) : Bool := p.data ∨ p.source.tag ≠ .FWD

/-- The places of the cells of a buffer, from `size` on; the first `numDat` cells are data. -/
def layout (size : ℕ) : (numDat : ℕ) → List Cell → List Place
  | _, [] => []
  | numDat + 1, c :: cells => ⟨c, size, true⟩ :: layout (size + 1) numDat cells
  | 0, c :: cells =>
    if c.tag = .FWD then ⟨c, 0, false⟩ :: layout size 0 cells
    else
      let addr := allocAddr size (room (newCell termIndex oldHdr c))
      ⟨c, addr, false⟩ :: layout (addr + 1) (payload c) cells

def layoutEnd (size : ℕ) : (numDat : ℕ) → List Cell → ℕ
  | _, [] => size
  | numDat + 1, _ :: cells => layoutEnd (size + 1) numDat cells
  | 0, c :: cells =>
    if c.tag = .FWD then layoutEnd size 0 cells
    else layoutEnd (allocAddr size (room (newCell termIndex oldHdr c)) + 1) (payload c) cells

/-- The new index of a cell of the buffer, if it has one. -/
def newIndexOf (places : List Place) (oldIndex : ℕ) : Option ℕ :=
  match places[oldIndex]? with
  | some p => if p.data then none else some p.addr
  | none => none

/-- The cell in the heap in the end, with its pointer patched. -/
def finalCell (places : List Place) (c : Cell) : Cell :=
  if needsPatch oldHdr c then
    Cell.make (plainTag c) ((newIndexOf places (c.index - oldHdr)).getD c.index)
  else newCell termIndex oldHdr c

theorem length_layout (size numDat : ℕ) (cells : List Cell) :
    (layout termIndex oldHdr size numDat cells).length = cells.length := by
  induction cells generalizing size numDat with
  | nil => cases numDat <;> rfl
  | cons c cells ih =>
    cases numDat with
    | succ numDat => simp [layout, ih]
    | zero =>
      rw [layout]
      split_ifs <;> simp [ih]

theorem le_layoutEnd (size numDat : ℕ) (cells : List Cell) :
    size ≤ layoutEnd termIndex oldHdr size numDat cells := by
  induction cells generalizing size numDat with
  | nil => cases numDat <;> simp [layoutEnd]
  | cons c cells ih =>
    cases numDat with
    | succ numDat =>
      have := ih (size + 1) numDat
      rw [layoutEnd]
      omega
    | zero =>
      rw [layoutEnd]
      split_ifs
      · exact ih size 0
      · have above := le_allocAddr size (room (newCell termIndex oldHdr c))
        have := ih (allocAddr size (room (newCell termIndex oldHdr c)) + 1) (payload c)
        omega

theorem le_layoutEnd_of_data {numDat : ℕ} {cells : List Cell} (size : ℕ)
    (enough : numDat ≤ cells.length) :
    size + numDat ≤ layoutEnd termIndex oldHdr size numDat cells := by
  induction numDat generalizing size cells with
  | zero => exact le_layoutEnd termIndex oldHdr size 0 cells
  | succ numDat ih =>
    cases cells with
    | nil => simp at enough
    | cons c cells =>
      have := ih (size + 1) (show numDat ≤ cells.length by simpa using enough)
      rw [layoutEnd]
      omega

theorem addr_mem {size numDat : ℕ} {cells : List Cell} {p : Place}
    (member : p ∈ layout termIndex oldHdr size numDat cells) (written : p.isWritten) :
    size ≤ p.addr ∧ p.addr < layoutEnd termIndex oldHdr size numDat cells := by
  induction cells generalizing size numDat with
  | nil => cases numDat <;> simp [layout] at member
  | cons c cells ih =>
    cases numDat with
    | succ numDat =>
      rw [layout, List.mem_cons] at member
      rw [layoutEnd]
      rcases member with rfl | member
      · have := le_layoutEnd termIndex oldHdr (size + 1) numDat cells
        exact ⟨le_rfl, by simp only; omega⟩
      · obtain ⟨low, high⟩ := ih member
        exact ⟨by omega, high⟩
    | zero =>
      rw [layout] at member
      rw [layoutEnd]
      split_ifs at member ⊢ with forward
      · rw [List.mem_cons] at member
        rcases member with rfl | member
        · simp [Place.isWritten, forward] at written
        · exact ih member
      · have above := le_allocAddr size (room (newCell termIndex oldHdr c))
        rw [List.mem_cons] at member
        rcases member with rfl | member
        · have := le_layoutEnd termIndex oldHdr
            (allocAddr size (room (newCell termIndex oldHdr c)) + 1) (payload c) cells
          exact ⟨above, by simp only; omega⟩
        · obtain ⟨low, high⟩ := ih member
          exact ⟨by omega, high⟩

theorem addr_increasing (size numDat : ℕ) (cells : List Cell) :
    (layout termIndex oldHdr size numDat cells).Pairwise
      fun p q => p.isWritten → q.isWritten → p.addr < q.addr := by
  induction cells generalizing size numDat with
  | nil => cases numDat <;> simp [layout]
  | cons c cells ih =>
    cases numDat with
    | succ numDat =>
      rw [layout, List.pairwise_cons]
      refine ⟨?_, ih (size + 1) numDat⟩
      intro q member _ written
      have := (addr_mem termIndex oldHdr member written).1
      simp only
      omega
    | zero =>
      rw [layout]
      split_ifs with forward
      · rw [List.pairwise_cons]
        refine ⟨?_, ih size 0⟩
        intro q _ written
        simp [Place.isWritten, forward] at written
      · rw [List.pairwise_cons]
        refine ⟨?_, ih _ _⟩
        intro q member _ written
        have := (addr_mem termIndex oldHdr member written).1
        simp only
        omega

theorem addr_injective {size numDat : ℕ} {cells : List Cell} {p q : Place}
    (left : p ∈ layout termIndex oldHdr size numDat cells)
    (right : q ∈ layout termIndex oldHdr size numDat cells)
    (pWritten : p.isWritten) (qWritten : q.isWritten) (same : p.addr = q.addr) : p = q := by
  have increasing := addr_increasing termIndex oldHdr size numDat cells
  obtain ⟨i, hi, rfl⟩ := List.getElem_of_mem left
  obtain ⟨j, hj, rfl⟩ := List.getElem_of_mem right
  rw [List.pairwise_iff_getElem] at increasing
  rcases Nat.lt_trichotomy i j with less | equal | less
  · have := increasing i j hi hj less pWritten qWritten
    omega
  · subst equal
    rfl
  · have := increasing j i hj hi less qWritten pWritten
    omega

theorem data_lt_tagged {size numDat : ℕ} {cells : List Cell} {p : Place}
    (member : p ∈ layout termIndex oldHdr size numDat cells) (written : p.isWritten)
    (tagged : p.data = false) : size + numDat ≤ p.addr := by
  induction numDat generalizing size cells with
  | zero => exact (addr_mem termIndex oldHdr member written).1
  | succ numDat ih =>
    cases cells with
    | nil => simp [layout] at member
    | cons c cells =>
      rw [layout, List.mem_cons] at member
      rcases member with rfl | member
      · simp at tagged
      · have := ih member
        omega

theorem no_tagged_in_data {size numDat : ℕ} {cells : List Cell} {d p : Place}
    (header : d ∈ layout termIndex oldHdr size numDat cells) (isHeader : d.data = false)
    (isDat : d.source.tag = .DAT) (member : p ∈ layout termIndex oldHdr size numDat cells)
    (written : p.isWritten) (tagged : p.data = false) (after : d.addr < p.addr) :
    d.addr + d.source.numCells ≤ p.addr := by
  induction cells generalizing size numDat with
  | nil => cases numDat <;> simp [layout] at member
  | cons c cells ih =>
    cases numDat with
    | succ numDat =>
      rw [layout, List.mem_cons] at header member
      rcases header with rfl | header
      · simp at isHeader
      · rcases member with rfl | member
        · simp at tagged
        · exact ih header member
    | zero =>
      have headerWritten : d.isWritten := by simp [Place.isWritten, isDat]
      rw [layout] at header member
      split_ifs at header member with forward
      · rw [List.mem_cons] at header member
        rcases header with rfl | header
        · simp [forward] at isDat
        · rcases member with rfl | member
          · simp [Place.isWritten, forward] at written
          · exact ih header member
      · rw [List.mem_cons] at header member
        rcases header with rfl | header
        · rcases member with rfl | member
          · omega
          · have := data_lt_tagged termIndex oldHdr member written tagged
            have pos := c.numCells_pos
            simp only at isDat
            simp only [payload, isDat, if_true] at this
            simp only
            omega
        · rcases member with rfl | member
          · have := (addr_mem termIndex oldHdr header headerWritten).1
            simp only at after
            omega
          · exact ih header member

theorem header_of_data {size numDat : ℕ} {cells : List Cell} {p : Place}
    (member : p ∈ layout termIndex oldHdr size numDat cells) (data : p.data = true) :
    p.addr < size + numDat ∨
      ∃ d ∈ layout termIndex oldHdr size numDat cells, d.data = false ∧ d.source.tag = .DAT ∧
        d.addr < p.addr ∧ p.addr < d.addr + d.source.numCells := by
  induction cells generalizing size numDat with
  | nil => cases numDat <;> simp [layout] at member
  | cons c cells ih =>
    cases numDat with
    | succ numDat =>
      rw [layout, List.mem_cons] at member
      rcases member with rfl | member
      · exact .inl (by simp only; omega)
      · rcases ih member with inside | ⟨d, header, rest⟩
        · exact .inl (by omega)
        · exact .inr ⟨d, by rw [layout]; exact List.mem_cons_of_mem _ header, rest⟩
    | zero =>
      rw [layout] at member ⊢
      split_ifs at member ⊢ with forward
      · rw [List.mem_cons] at member
        rcases member with rfl | member
        · simp at data
        · rcases ih member with inside | ⟨d, header, rest⟩
          · exact .inl inside
          · exact .inr ⟨d, List.mem_cons_of_mem _ header, rest⟩
      · rw [List.mem_cons] at member
        rcases member with rfl | member
        · simp at data
        · right
          rcases ih member with inside | ⟨d, header, rest⟩
          · have low := (addr_mem termIndex oldHdr member (by simp [Place.isWritten, data])).1
            by_cases isDat : c.tag = .DAT
            · have pos := c.numCells_pos
              simp only [payload, isDat, if_true] at inside
              exact ⟨_, List.mem_cons_self, rfl, isDat, by simp only; omega, by simp only; omega⟩
            · simp only [payload, isDat, if_false] at inside
              omega
          · exact ⟨d, List.mem_cons_of_mem _ header, rest⟩

theorem data_fits {size numDat i : ℕ} {cells : List Cell} {d : Place}
    (header : (layout termIndex oldHdr size numDat cells)[i]? = some d) (isHeader : d.data = false)
    (isDat : d.source.tag = .DAT) (enough : d.source.numCells ≤ cells.length - i) :
    d.addr + d.source.numCells ≤ layoutEnd termIndex oldHdr size numDat cells := by
  induction cells generalizing size numDat i with
  | nil => cases numDat <;> simp [layout] at header
  | cons c cells ih =>
    cases numDat with
    | succ numDat =>
      rw [layout] at header
      cases i with
      | zero =>
        simp only [List.getElem?_cons_zero, Option.some.injEq] at header
        simp [← header] at isHeader
      | succ i =>
        simp only [List.length_cons, Nat.add_sub_add_right] at enough
        exact ih (by simpa using header) enough
    | zero =>
      rw [layout] at header
      rw [layoutEnd]
      split_ifs at header ⊢ with forward
      · cases i with
        | zero =>
          simp only [List.getElem?_cons_zero, Option.some.injEq] at header
          simp [← header, forward] at isDat
        | succ i =>
          simp only [List.length_cons, Nat.add_sub_add_right] at enough
          exact ih (by simpa using header) enough
      · cases i with
        | zero =>
          simp only [List.getElem?_cons_zero, Option.some.injEq] at header
          subst header
          simp only [List.length_cons, Nat.sub_zero] at enough isDat ⊢
          have pos := c.numCells_pos
          have row := le_layoutEnd_of_data termIndex oldHdr (allocAddr size (room (newCell termIndex oldHdr c)) + 1)
            (show payload c ≤ cells.length by simp only [payload, isDat, if_true]; omega)
          simp only [payload, isDat, if_true] at row ⊢
          omega
        | succ i =>
          simp only [List.length_cons, Nat.add_sub_add_right] at enough
          exact ih (by simpa using header) enough

end Layout

section Body

variable {termIndex : TermIndex} {oldHdr heapStart : ℕ}

@[simp] theorem plainTag_of_ne {c : Cell} (plain : c.tag ≠ .RFW) : plainTag c = c.tag := by
  rw [plainTag, if_neg plain]

theorem make_plainTag (c : Cell) :
    (if c.tag = .RFW then c.unwatch else c) = Cell.make (plainTag c) c.index := by
  unfold plainTag
  split_ifs
  · rfl
  · rw [Cell.make_tag_value]

/-- A pointer that the header knows, or that is patched later -/
def isIndexed (termIndex : TermIndex) (oldHdr : ℕ) (c : Cell) : Prop :=
  oldHdr ≤ c.index ∨ ∃ addr, termIndex.lookup (Cell.make (plainTag c) c.index) = some addr

/-- The checks of the switch of `read`. -/
def isReadable (termIndex : TermIndex) (oldHdr : ℕ) (c : Cell) (left : ℕ) : Prop :=
  match c.tag with
  | .CON => c.isDirect ∨ ∃ index, termIndex.lookup c.toAtom = some index
  | .DAT => 1 ≤ c.numBits ∧ c.numCells ≤ left
  | .INT => True
  | .FWD => True
  | _ => isIndexed termIndex oldHdr c

/-- The state after the switch, for a cell that is no forwarding cell. -/
def termRead (termIndex : TermIndex) (oldHdr : ℕ) (s : ReadState) (c : Cell) : ReadState :=
  let addr := allocAddr s.env.size (room (newCell termIndex oldHdr c))
  { s with
    env := (s.env.newCell0 (newCell termIndex oldHdr c)).2
    ptrTerms := if needsPatch oldHdr c then s.ptrTerms ++ [addr] else s.ptrTerms
    numDat := payload c }

theorem readTerm_pointer {s : ReadState} {c : Cell} (left : ℕ)
    (pointer : c.tag = .REF ∨ c.tag = .RFW ∨ c.tag = .BIG ∨ c.tag = .STR) (tagged : s.numDat = 0) :
    (isIndexed termIndex oldHdr c ∧ readTerm termIndex oldHdr s c left =
        .ok (allocAddr s.env.size (room (newCell termIndex oldHdr c)),
          termRead termIndex oldHdr s c)) ∨
      (¬ isIndexed termIndex oldHdr c ∧
        readTerm termIndex oldHdr s c left = .error .missingIndex) := by
  have unfolded : readTerm termIndex oldHdr s c left =
      (let c := Cell.make (plainTag c) c.index
      if c.index < oldHdr then
        (termIndex.lookup c).elim (.error .missingIndex) fun newAddr =>
          let new := s.env.newCell0 (Cell.make c.tag newAddr)
          .ok (new.1, { s with env := new.2 })
      else
        let new := s.env.newCell0 (Cell.make c.tag (c.index - oldHdr))
        .ok (new.1, { s with env := new.2, ptrTerms := s.ptrTerms ++ [new.1] })) := by
    rw [← make_plainTag]
    unfold readTerm
    generalize (if c.tag = .RFW then c.unwatch else c) = c'
    dsimp only
    cases termIndex.lookup c' <;> rcases pointer with tag | tag | tag | tag <;> rw [tag] <;> rfl
  have notDat : payload c = s.numDat := by
    rw [payload, tagged, if_neg]
    rcases pointer with tag | tag | tag | tag <;> simp [tag]
  have written : newCell termIndex oldHdr c =
      if c.index < oldHdr then
        Cell.make (plainTag c) ((termIndex.lookup (Cell.make (plainTag c) c.index)).getD 0)
      else Cell.make (plainTag c) (c.index - oldHdr) := by
    unfold newCell
    rcases pointer with tag | tag | tag | tag <;> rw [tag]
  have plain : plainTag c ≠ .CON := by
    unfold plainTag
    rcases pointer with tag | tag | tag | tag <;> simp [tag]
  have one : room (newCell termIndex oldHdr c) = 1 := by
    rw [room, if_neg]
    rw [written]
    split_ifs <;> simpa using plain
  have appended : ∀ v, s.env.newCell0 (Cell.make (plainTag c) v) =
      s.env.append 1 (Cell.make (plainTag c) v) := by
    intro v
    rw [TermEnv.newCell0, if_neg (by simpa using plain)]
  have range := Cell.value_make_of_lt (plainTag c) c.value_lt
  rw [unfolded, one, termRead, one, notDat, written]
  simp only [Cell.tag_make, Cell.index] at range ⊢
  rw [range]
  by_cases inHeader : c.value < oldHdr
  · have keep : needsPatch oldHdr c = false := by
      simp only [needsPatch, Cell.index, decide_eq_false_iff_not, not_and, not_le]
      intro _
      exact inHeader
    rw [if_pos inHeader, if_pos inHeader, keep]
    cases found : termIndex.lookup (Cell.make (plainTag c) c.value) with
    | none =>
      right
      refine ⟨?_, rfl⟩
      rintro (above | ⟨addr, known⟩)
      · exact absurd inHeader (by simpa using above)
      · rw [Cell.index, found] at known
        cases known
    | some newAddr =>
      left
      refine ⟨.inr ⟨newAddr, found⟩, ?_⟩
      simp only [Option.elim_some, Option.getD_some, appended, TermEnv.append, if_false,
        Bool.false_eq_true]
  · have patch : needsPatch oldHdr c = true := by
      simp only [needsPatch, Cell.index, decide_eq_true_eq]
      exact ⟨pointer, by omega⟩
    rw [if_neg inHeader, if_neg inHeader, patch]
    left
    refine ⟨.inl (by simpa using inHeader), ?_⟩
    simp only [appended, TermEnv.append, if_true]

theorem readTerm_spec {s : ReadState} {c : Cell} (left : ℕ) (kept : c.tag ≠ .FWD)
    (tagged : s.numDat = 0) :
    (isReadable termIndex oldHdr c left ∧ readTerm termIndex oldHdr s c left =
        .ok (allocAddr s.env.size (room (newCell termIndex oldHdr c)),
          termRead termIndex oldHdr s c)) ∨
      (¬ isReadable termIndex oldHdr c left ∧
        ∃ e, readTerm termIndex oldHdr s c left = .error e ∧ e.isSerializerException) := by
  cases tag : c.tag with
  | FWD => exact absurd tag kept
  | INT =>
    left
    refine ⟨by simp [isReadable, tag], ?_⟩
    simp [readTerm, tag, termRead, newCell, room, TermEnv.newCell0, TermEnv.append, needsPatch,
      payload, tagged]
  | CON =>
    cases direct : c.isDirect with
    | true =>
      left
      refine ⟨by simp [isReadable, tag, direct], ?_⟩
      simp [readTerm, tag, direct, termRead, newCell, room, TermEnv.newCell0, TermEnv.append,
        needsPatch, payload, tagged]
    | false =>
      cases found : termIndex.lookup c.toAtom with
      | none =>
        right
        exact ⟨by simp [isReadable, tag, direct, found], .missingIndex,
          by simp [readTerm, tag, direct, found], rfl⟩
      | some index =>
        left
        refine ⟨by simp [isReadable, tag, found], ?_⟩
        simp [readTerm, tag, direct, found, termRead, newCell, room, TermEnv.newCell0,
          TermEnv.append, needsPatch, payload, tagged, Cell.conOfIndex]
  | DAT =>
    by_cases empty : c.numBits < 1
    · right
      refine ⟨by simp only [isReadable, tag]; omega, .datTooSmall, ?_, rfl⟩
      simp only [readTerm, tag, if_pos empty]
    · by_cases long : left < c.numCells
      · right
        refine ⟨by simp only [isReadable, tag]; omega, .datTooBig, ?_, rfl⟩
        simp only [readTerm, tag, if_neg empty, if_pos long]
      · left
        refine ⟨by simp only [isReadable, tag]; omega, ?_⟩
        simp [readTerm, tag, empty, long, termRead, newCell, room, TermEnv.newCell0,
          TermEnv.append, needsPatch, payload]
  | REF | RFW | BIG | STR =>
    have pointer : c.tag = .REF ∨ c.tag = .RFW ∨ c.tag = .BIG ∨ c.tag = .STR := by simp [tag]
    rcases readTerm_pointer left pointer tagged with ⟨known, result⟩ | ⟨unknown, result⟩
    · exact .inl ⟨by simpa only [isReadable, tag] using known, result⟩
    · exact .inr ⟨by simpa only [isReadable, tag] using unknown, .missingIndex, result, rfl⟩

/-- What the heap holds at a place before the pointers are patched. -/
def Place.written (termIndex : TermIndex) (oldHdr : ℕ) (p : Place) : Cell :=
  if p.data then p.source else newCell termIndex oldHdr p.source

/-- The loop of `read` has put cells into these places; the first has the given old index. -/
structure Appended (termIndex : TermIndex) (oldHdr : ℕ) (places : List Place) (s s' : ReadState)
    (oldIndex : ℕ) : Prop where
  placed : ∀ p ∈ places, p.isWritten → s'.env.mem p.addr = p.written termIndex oldHdr
  kept : ∀ a, (∀ p ∈ places, p.isWritten → p.addr ≠ a) → s'.env.mem a = s.env.mem a
  tables : s'.env = { s.env with mem := s'.env.mem, size := s'.env.size }
  used : s'.used = s.used ++ (places.filter (!·.data)).map (·.addr)
  ptrTerms : s'.ptrTerms =
    s.ptrTerms ++ (places.filter fun p => !p.data && needsPatch oldHdr p.source).map (·.addr)
  index : ∀ k, s'.oldNewIndex.lookup k =
    if oldIndex ≤ k then (newIndexOf places (k - oldIndex)).or (s.oldNewIndex.lookup k)
    else s.oldNewIndex.lookup k
  result : s'.resultIndex = s.resultIndex.or ((places.find? (!·.data)).map (·.addr))
  readable : ∀ i p, places[i]? = some p → p.data = false →
    isReadable termIndex oldHdr p.source (places.length - i)

theorem Appended.nil (s : ReadState) (oldIndex : ℕ) :
    Appended termIndex oldHdr [] s s oldIndex where
  placed := by simp
  kept _ _ := rfl
  tables := rfl
  used := by simp
  ptrTerms := by simp
  index k := by simp [newIndexOf]
  result := by simp
  readable := by simp

theorem Appended.cons {places : List Place} {p : Place} {s s₁ s' : ReadState} {oldIndex : ℕ}
    (rest : Appended termIndex oldHdr places s₁ s' (oldIndex + 1))
    (mem : s₁.env.mem = if p.isWritten then
      Function.update s.env.mem p.addr (p.written termIndex oldHdr) else s.env.mem)
    (fresh : p.isWritten → ∀ q ∈ places, q.isWritten → q.addr ≠ p.addr)
    (tables : s₁.env = { s.env with mem := s₁.env.mem, size := s₁.env.size })
    (used : s₁.used = s.used ++ if p.data then [] else [p.addr])
    (ptrTerms : s₁.ptrTerms =
      s.ptrTerms ++ if !p.data && needsPatch oldHdr p.source then [p.addr] else [])
    (index : s₁.oldNewIndex =
      if p.data then s.oldNewIndex else s.oldNewIndex.insert oldIndex p.addr)
    (result : s₁.resultIndex =
      if p.data then s.resultIndex else s.resultIndex.or (some p.addr))
    (readable : p.data = false → isReadable termIndex oldHdr p.source (places.length + 1)) :
    Appended termIndex oldHdr (p :: places) s s' oldIndex where
  placed q member written := by
    rcases List.mem_cons.mp member with rfl | member
    · rw [rest.kept q.addr (fresh written), mem, if_pos written, Function.update_self]
    · exact rest.placed q member written
  kept a away := by
    rw [rest.kept a fun q member => away q (List.mem_cons_of_mem _ member), mem]
    split_ifs with written
    · exact Function.update_of_ne (away p List.mem_cons_self written).symm _ _
    · rfl
  tables := by rw [rest.tables, tables]
  used := by
    rw [rest.used, used]
    cases data : p.data <;> simp [data]
  ptrTerms := by
    rw [rest.ptrTerms, ptrTerms]
    cases patched : !p.data && needsPatch oldHdr p.source <;> simp [patched]
  index k := by
    rw [rest.index, index]
    rcases Nat.lt_trichotomy oldIndex k with less | rfl | less
    · have behind : k - oldIndex = k - (oldIndex + 1) + 1 := by omega
      have other : k ≠ oldIndex := by omega
      rw [if_pos (by omega : oldIndex + 1 ≤ k), if_pos (by omega : oldIndex ≤ k), behind]
      simp only [newIndexOf, List.getElem?_cons_succ]
      cases p.data <;> simp [other]
    · simp only [newIndexOf, Nat.sub_self, List.getElem?_cons_zero, le_refl, if_true]
      rw [if_neg (by omega)]
      cases p.data <;> simp
    · have other : k ≠ oldIndex := by omega
      rw [if_neg (by omega : ¬ oldIndex + 1 ≤ k), if_neg (by omega : ¬ oldIndex ≤ k)]
      cases p.data <;> simp [other]
  result := by
    rw [rest.result, result, List.find?_cons]
    cases p.data <;> simp
  readable i q found tagged := by
    cases i with
    | zero =>
      simp only [List.getElem?_cons_zero, Option.some.injEq] at found
      subst found
      exact readable tagged
    | succ i =>
      rw [List.length_cons, Nat.add_sub_add_right]
      exact rest.readable i q (by simpa using found) tagged

theorem readBody_ok {s s' : ReadState} {oldIndex : ℕ} {cells : List Cell}
    (done : readBody termIndex oldHdr heapStart s oldIndex cells = .ok s') :
    Appended termIndex oldHdr (layout termIndex oldHdr s.env.size s.numDat cells) s s' oldIndex ∧
      s'.env.size = layoutEnd termIndex oldHdr s.env.size s.numDat cells := by
  induction cells generalizing s oldIndex with
  | nil =>
    obtain rfl : s = s' := Except.ok.inj done
    cases s.numDat <;> exact ⟨Appended.nil s oldIndex, rfl⟩
  | cons c cells ih =>
    rw [readBody] at done
    cases count : s.numDat with
    | succ numDat =>
      rw [if_pos (by omega)] at done
      obtain ⟨rest, ends⟩ := ih done
      simp only [count, TermEnv.newDatCell, TermEnv.append, allocAddr_one, Nat.add_sub_cancel]
        at rest ends
      rw [layout, layoutEnd]
      refine ⟨rest.cons ?_ ?_ rfl ?_ ?_ rfl rfl ?_, ends⟩
      · simp [Place.isWritten, Place.written]
      · intro _ q member written
        exact Nat.ne_of_gt (addr_mem termIndex oldHdr member written).1
      · simp
      · simp
      · simp
    | zero =>
      rw [if_neg (by omega)] at done
      by_cases forward : c.tag = .FWD
      · have skipped : readTerm termIndex oldHdr s c (cells.length + 1) = .ok (0, s) := by
          simp [readTerm, forward]
        rw [skipped] at done
        obtain ⟨read, same, done⟩ := bind_ok done
        obtain rfl := Except.ok.inj same
        obtain ⟨used, inside, done⟩ := bind_ok done
        simp only [setUsed] at inside
        split_ifs at inside
        cases inside
        obtain ⟨rest, ends⟩ := ih done
        simp only [count] at rest ends
        rw [layout, layoutEnd, if_pos forward, if_pos forward]
        refine ⟨rest.cons ?_ ?_ rfl ?_ ?_ rfl rfl ?_, ends⟩
        · simp [Place.isWritten, forward]
        · intro written
          simp [Place.isWritten, forward] at written
        · simp
        · simp [needsPatch, forward]
        · intro _
          simp [isReadable, forward]
      · rcases readTerm_spec (cells.length + 1) forward count with
          ⟨fine, result⟩ | ⟨-, e, result, -⟩
        · rw [result] at done
          obtain ⟨read, same, done⟩ := bind_ok done
          obtain rfl := Except.ok.inj same
          obtain ⟨used, inside, done⟩ := bind_ok done
          simp only [setUsed] at inside
          split_ifs at inside
          cases inside
          obtain ⟨rest, ends⟩ := ih done
          simp only [termRead, TermEnv.newCell0, TermEnv.append] at rest ends
          rw [layout, layoutEnd, if_neg forward, if_neg forward]
          refine ⟨rest.cons ?_ ?_ rfl ?_ ?_ rfl rfl ?_, ends⟩
          · simp [Place.isWritten, forward, Place.written, room]
          · intro _ q member written
            exact Nat.ne_of_gt (addr_mem termIndex oldHdr member written).1
          · simp
          · cases needsPatch oldHdr c <;> simp
          · intro _
            rw [length_layout]
            exact fine
        · rw [result] at done
          cases done

theorem readBody_error {s : ReadState} {oldIndex : ℕ} {cells : List Cell} {e : ReadError}
    (start : heapStart ≤ s.env.size)
    (noForward : ∀ p ∈ layout termIndex oldHdr s.env.size s.numDat cells, p.data = false →
      p.source.tag ≠ .FWD)
    (failed : readBody termIndex oldHdr heapStart s oldIndex cells = .error e) :
    e.isSerializerException := by
  induction cells generalizing s oldIndex with
  | nil => cases failed
  | cons c cells ih =>
    rw [readBody] at failed
    cases count : s.numDat with
    | succ numDat =>
      rw [if_pos (by omega)] at failed
      rw [count, layout] at noForward
      refine ih ?_ ?_ failed
      · simp only [TermEnv.newDatCell, TermEnv.append, allocAddr_one]
        omega
      · simp only [count, TermEnv.newDatCell, TermEnv.append, allocAddr_one, Nat.add_sub_cancel]
        exact fun p member => noForward p (List.mem_cons_of_mem _ member)
    | zero =>
      rw [if_neg (by omega)] at failed
      rw [count, layout] at noForward
      have kept : c.tag ≠ .FWD := by
        intro forward
        rw [if_pos forward] at noForward
        exact noForward _ List.mem_cons_self rfl forward
      rw [if_neg kept] at noForward
      have above := le_allocAddr s.env.size (room (newCell termIndex oldHdr c))
      rcases readTerm_spec (cells.length + 1) kept count with
        ⟨-, result⟩ | ⟨-, e', result, serializer⟩
      · rw [result] at failed
        rcases bind_error failed with impossible | ⟨read, same, failed⟩
        · cases impossible
        · obtain rfl := Except.ok.inj same
          rcases bind_error failed with wrapped | ⟨used, -, failed⟩
          · rw [setUsed, if_neg (by omega)] at wrapped
            cases wrapped
          · refine ih ?_ ?_ failed
            · simp only [termRead, TermEnv.newCell0, TermEnv.append]
              change heapStart ≤ allocAddr s.env.size (room (newCell termIndex oldHdr c)) + 1
              omega
            · exact fun p member => noForward p (List.mem_cons_of_mem _ member)
      · rw [result] at failed
        cases failed
        exact serializer

end Body

end Epilog.Common.Placement
