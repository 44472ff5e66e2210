/- Module: Epilog/Global/MetaCodec
   source: src/src/global/meta_entry.hpp (read, write), src/src/common/utime.hpp, src/src/pow/flt.hpp
   digest: Meta entries as bytes and as terms, and which of them come back. -/

import Epilog.Global.MetaTerms
import Epilog.Common.Bits
import Epilog.Lib.Run

set_option autoImplicit false

namespace Epilog.Global.MetaCodec

open Epilog.Common.Bits Epilog.Lib.Run Epilog.Global.Chains Epilog.Global.MetaTerms

abbrev Bytes := List UInt8

section BigEndian

/-- The lowest `n` bytes of a number, the highest of them first -/
def beBytes : ℕ → ℕ → Bytes
  | 0, _ => []
  | n + 1, v => beBytes n (v / 256) ++ [UInt8.ofNat v]

def beNat (bytes : Bytes) : ℕ := bytes.foldl (fun v b => 256 * v + b.toNat) 0

@[simp] theorem length_beBytes (n v : ℕ) : (beBytes n v).length = n := by
  induction n generalizing v with
  | zero => rfl
  | succ n ih => rw [beBytes, List.length_append, ih]; rfl

theorem beNat_append (bytes : Bytes) (b : UInt8) :
    beNat (bytes ++ [b]) = 256 * beNat bytes + b.toNat := by
  rw [beNat, List.foldl_append]
  rfl

@[simp] theorem beNat_beBytes (n v : ℕ) : beNat (beBytes n v) = v % 256 ^ n := by
  induction n generalizing v with
  | zero =>
    rw [pow_zero, Nat.mod_one]
    rfl
  | succ n ih =>
    have low : (UInt8.ofNat v).toNat = v % 256 := UInt8.toNat_ofNat
    rw [beBytes, beNat_append, ih, low, pow_succ', Nat.mod_mul]
    omega

end BigEndian

section Fields

def timeToBytes (time : UInt64) : Bytes := beBytes 8 time.toNat

/-- `utime::from_bytes`, which shifts after the last byte too. -/
def timeFromBytes (data : Bytes) : UInt64 :=
  data.foldl (fun time b => (time ||| b.toUInt64) <<< 8) 0

/-- `flt1648::write`: the exponent takes the place of the two highest bytes of the mantissa. -/
def writeFlt (d : Flt1648) : Bytes :=
  beBytes 2 d.exponent.toUInt16.toNat ++ (beBytes 8 d.mantissa.toNat).drop 2

/-- `flt1648::read`; the mantissa is read into the copy that `mantissa()` returns. -/
def readFlt (d : Flt1648) (bytes : Bytes) : Flt1648 :=
  { d with exponent := Int16.ofNat (beNat (bytes.take 2)) }

private theorem shift_in (v : ℕ) (b : UInt8) :
    (UInt64.ofNat (256 * v) ||| b.toUInt64) <<< 8 = UInt64.ofNat (256 * (256 * v + b.toNat)) := by
  have small := b.toNat_lt
  have low : 256 * v % 2 ^ 64 ||| b.toNat = 256 * v % 2 ^ 64 + b.toNat := by
    have shape : 256 * v % 2 ^ 64 = 2 ^ 8 * (v % 2 ^ 56) := by omega
    rw [shape, Nat.two_pow_add_eq_or_of_lt small]
  apply UInt64.toNat_inj.mp
  rw [UInt64.toNat_shiftLeft, UInt64.toNat_or, UInt64.toNat_ofNat', UInt64.toNat_ofNat',
    UInt8.toNat_toUInt64, low, Nat.shiftLeft_eq]
  change _ * 2 ^ 8 % 2 ^ 64 = _
  omega

theorem timeFromBytes_eq (data : Bytes) :
    timeFromBytes data = UInt64.ofNat (256 * beNat data) := by
  have general : ∀ (data : Bytes) (v : ℕ),
      data.foldl (fun (time : UInt64) b => (time ||| b.toUInt64) <<< 8) (UInt64.ofNat (256 * v)) =
        UInt64.ofNat (256 * data.foldl (fun (v : ℕ) b => 256 * v + b.toNat) v) := by
    intro data
    induction data with
    | nil => exact fun _ => rfl
    | cons b data ih =>
      intro v
      rw [List.foldl_cons, List.foldl_cons, shift_in, ih]
  exact general data 0

theorem time_round_trip_iff (time : UInt64) :
    timeFromBytes (timeToBytes time) = time ↔ time = 0 := by
  have small := time.toNat_lt
  rw [timeFromBytes_eq, timeToBytes, beNat_beBytes, ← UInt64.toNat_inj, ← UInt64.toNat_inj,
    UInt64.toNat_ofNat']
  change _ ↔ time.toNat = 0
  omega

theorem readFlt_writeFlt (into d : Flt1648) :
    readFlt into (writeFlt d) = { exponent := d.exponent, mantissa := into.mantissa } := by
  have small := d.exponent.toUInt16.toNat_lt
  have first : (writeFlt d).take 2 = beBytes 2 d.exponent.toUInt16.toNat := List.take_left' rfl
  have back : Int16.ofNat d.exponent.toUInt16.toNat = d.exponent := by
    have same : (UInt16.ofNat d.exponent.toUInt16.toNat).toInt16 = d.exponent := by
      rw [UInt16.ofNat_toNat, Int16.toInt16_toUInt16]
    exact same
  rw [readFlt, first, beNat_beBytes, Nat.mod_eq_of_lt (by omega), back]

end Fields

section Bytes

/-- A `meta_entry` with the ids of the local roots, which are not shared -/
structure StoredEntry extends MetaEntry where
  rootIdMeta : UInt64 := 0
  rootIdBlocks : UInt64 := 0
  rootIdHeap : UInt64 := 0
  rootIdClosure : UInt64 := 0
  rootIdSymbols : UInt64 := 0
  rootIdProgram : UInt64 := 0
  deriving DecidableEq

namespace StoredEntry

/-- `write`; the height and the root id of the entry itself are not stored. -/
def write (e : StoredEntry) : Bytes :=
  beBytes 32 e.id.val ++ (writeUint64 e.version.toBitVec ++ (beBytes 32 e.previousId.val ++
    (timeToBytes e.timestamp ++ (writeFlt e.powDifficulty ++ (beBytes 144 e.powProof.val ++
      (writeUint64 e.rootIdBlocks.toBitVec ++ (writeUint64 e.rootIdHeap.toBitVec ++
        (writeUint64 e.rootIdClosure.toBitVec ++ (writeUint64 e.rootIdSymbols.toBitVec ++
          writeUint64 e.rootIdProgram.toBitVec)))))))))

def read (e : StoredEntry) (data : Bytes) : StoredEntry :=
  let p := data
  let id := Fin.ofNat (2 ^ 256) (beNat (p.take 32)); let p := p.drop 32
  let version := UInt64.ofBitVec (readUint64 (p.take 8)); let p := p.drop 8
  let previousId := Fin.ofNat (2 ^ 256) (beNat (p.take 32)); let p := p.drop 32
  let timestamp := timeFromBytes (p.take 8); let p := p.drop 8
  let powDifficulty := readFlt e.powDifficulty (p.take 8); let p := p.drop 8
  let powProof := Fin.ofNat (2 ^ 1152) (beNat (p.take 144)); let p := p.drop 144
  let rootIdBlocks := UInt64.ofBitVec (readUint64 (p.take 8)); let p := p.drop 8
  let rootIdHeap := UInt64.ofBitVec (readUint64 (p.take 8)); let p := p.drop 8
  let rootIdClosure := UInt64.ofBitVec (readUint64 (p.take 8)); let p := p.drop 8
  let rootIdSymbols := UInt64.ofBitVec (readUint64 (p.take 8)); let p := p.drop 8
  let rootIdProgram := UInt64.ofBitVec (readUint64 (p.take 8))
  { id, version, previousId, timestamp, powDifficulty, powProof, rootIdBlocks, rootIdHeap,
    rootIdClosure, rootIdSymbols, rootIdProgram, height := e.height, rootIdMeta := e.rootIdMeta }

end StoredEntry

/-- `meta_entry()` -/
def emptyEntry : StoredEntry := { newEntry with }

theorem read_write_append (into e : StoredEntry) (rest : Bytes) : into.read (e.write ++ rest) =
    { e with
      timestamp := timeFromBytes (timeToBytes e.timestamp)
      powDifficulty := { exponent := e.powDifficulty.exponent
                         mantissa := into.powDifficulty.mantissa }
      height := into.height
      rootIdMeta := into.rootIdMeta } := by
  have flt : (writeFlt e.powDifficulty).length = 8 := by
    rw [writeFlt, List.length_append, length_beBytes, List.length_drop, length_beBytes]
  have time : (timeToBytes e.timestamp).length = 8 := length_beBytes 8 _
  simp only [StoredEntry.read, StoredEntry.write, List.append_assoc,
    List.take_left' (length_beBytes _ _),
    List.drop_left' (length_beBytes _ _), List.take_left' (length_writeUint64 _),
    List.drop_left' (length_writeUint64 _), List.take_left' time, List.drop_left' time,
    List.take_left' flt, List.drop_left' flt, readUint64_writeUint64, beNat_beBytes,
    readFlt_writeFlt, UInt64.ofBitVec_toBitVec]
  have idBack (id : MetaId) : Fin.ofNat (2 ^ 256) (id.val % 256 ^ 32) = id := by
    have width : 256 ^ 32 = 2 ^ 256 := (pow_mul 2 8 32).symm
    rw [width, Nat.mod_eq_of_lt id.isLt, Fin.ofNat_val_eq_self]
  have powBack (proof : PowProof) : Fin.ofNat (2 ^ 1152) (proof.val % 256 ^ 144) = proof := by
    have width : 256 ^ 144 = 2 ^ 1152 := (pow_mul 2 8 144).symm
    rw [width, Nat.mod_eq_of_lt proof.isLt, Fin.ofNat_val_eq_self]
  rw [idBack, idBack, powBack]

theorem read_write (into e : StoredEntry) : into.read e.write =
    { e with
      timestamp := timeFromBytes (timeToBytes e.timestamp)
      powDifficulty := { exponent := e.powDifficulty.exponent
                         mantissa := into.powDifficulty.mantissa }
      height := into.height
      rootIdMeta := into.rootIdMeta } := by
  have whole := read_write_append into e []
  rwa [List.append_nil] at whole

theorem read_write_iff (e : StoredEntry) : emptyEntry.read e.write = e ↔
    e.timestamp = 0 ∧ e.powDifficulty.mantissa = 0x800000000000 ∧ e.height = 0 ∧
      e.rootIdMeta = 0 := by
  rw [read_write, ← time_round_trip_iff]
  obtain ⟨⟨id, previousId, version, height, timestamp, powProof, powDifficulty⟩⟩ := e
  obtain ⟨exponent, mantissa⟩ := powDifficulty
  simp only [emptyEntry, newEntry, StoredEntry.mk.injEq, MetaEntry.mk.injEq, Flt1648.mk.injEq,
    true_and, and_true]
  tauto

end Bytes

section Terms

/-- The list of `db_get_meta`, with the states of the five databases where there is `more` -/
def metaTermWith (more : Bool) (e : MetaEntry) : MetaTerm :=
  .meta1 (properties e ++ if more then List.replicate 5 .unrecognized else [])

theorem dbParseMeta_with (more : Bool) (e : MetaEntry) :
    dbParseMeta (metaTermWith more e) = dbParseMeta (metaTerm e) := by
  have passed (n : ℕ) (entry : MetaEntry) :
      (List.replicate n Property.unrecognized).foldlM parseProperty entry = .ok entry := by
    induction n with
    | zero => rfl
    | succ n ih => rw [List.replicate_succ, List.foldlM_cons]; exact ih
  cases more with
  | false => rw [metaTermWith, if_neg Bool.false_ne_true, List.append_nil, metaTerm]
  | true =>
    have same : (properties e ++ List.replicate 5 Property.unrecognized).foldlM parseProperty newEntry =
        (properties e).foldlM parseProperty newEntry := by
      rw [List.foldlM_append]
      conv_rhs => rw [← bind_pure ((properties e).foldlM parseProperty newEntry)]
      exact bind_congr (passed 5)
    rw [metaTermWith, if_pos rfl, metaTerm, dbParseMeta, dbParseMeta, same]

theorem posMsb_bounds (v : UInt64) : -1 ≤ posMsb v ∧ posMsb v ≤ 63 := by
  have log (w : UInt64) : Nat.log2 w.toNat ≤ 63 := by
    by_cases zero : w.toNat = 0
    · rw [zero]
      decide
    · exact Nat.lt_succ_iff.mp ((Nat.log2_lt zero).mpr w.toNat_lt)
  unfold posMsb
  split_ifs
  · decide
  · have := log (~~~v + 1)
    omega
  · have := log v
    omega

theorem normal_of_posMsb {v : UInt64} (small : v.toNat < 2 ^ 63) (msb : posMsb v = 47) :
    2 ^ 47 ≤ v.toNat ∧ v.toNat < 2 ^ 48 := by
  have positive : v >>> 63 = 0 := by
    apply UInt64.toNat_inj.mp
    rw [UInt64.toNat_shiftRight]
    simp [Nat.shiftRight_eq_div_pow]
    omega
  rw [posMsb, if_neg (not_not.mpr positive)] at msb
  split_ifs at msb with zero
  have nonzero : v.toNat ≠ 0 := fun eq => zero (UInt64.toNat_inj.mp eq)
  exact (Nat.log2_eq_iff nonzero).mp (by exact_mod_cast msb)

theorem posMsb_of_kept {exponent : Int16} {m : UInt64}
    (kept : (flt1648 exponent m).exponent = exponent) : posMsb m = 47 := by
  have bounds := posMsb_bounds m
  have moved : (flt1648 exponent m).exponent = exponent + Int16.ofInt (posMsb m - 47) := by
    simp only [flt1648]
    split_ifs <;> rfl
  have zero : Int16.ofInt (posMsb m - 47) = 0 := by
    rw [moved] at kept
    simpa using kept
  have back := congrArg Int16.toInt zero
  rw [Int16.toInt_ofInt_of_le (by omega) (by omega)] at back
  have := back.trans Int16.toInt_zero
  omega

theorem version_read {entry entry' : MetaEntry} {a : Arg}
    (read : parseProperty entry (.version a) = .ok entry') :
    entry' = { entry with version := 1 } := by
  obtain ⟨ver, _, read⟩ := bind_ok read
  by_cases one : ver = 1
  · rw [if_neg (not_not.mpr one)] at read
    rw [← Except.ok.inj read, one]
    rfl
  · rw [if_pos one] at read
    exact nomatch read

theorem number_read {failure : Failure} {max n : ℕ} {a : Arg}
    (read : orThrow failure (getNumber max a) = .ok n) : getNumber max a = some n := by
  cases found : getNumber max a with
  | none => rw [found] at read; exact nomatch read
  | some m => rw [found] at read; rw [Except.ok.inj read]

theorem diff_read {entry entry' : MetaEntry} {d : Flt1648}
    (read : parseProperty entry
      (.diff (intCell d.exponent.toInt) (intCell d.mantissa.toNat)) = .ok entry')
    (same : entry'.powDifficulty = d) : 0 ≤ d.exponent ∧ Flt1648.Normal d := by
  obtain ⟨exp, atExp, read⟩ := bind_ok read
  obtain ⟨m, atM, read⟩ := bind_ok read
  have low := d.exponent.le_toInt
  have high := d.exponent.toInt_lt
  have expEq : (exp : ℤ) = d.exponent.toInt := by
    rw [getNumber_intCell_eq (number_read atExp)]
    apply Int.bmod_eq_of_le <;> omega
  have mEq := getNumber_intCell_eq (number_read atM)
  have mSmall : m < 2 ^ 60 := by
    have := Int.bmod_lt (x := (d.mantissa.toNat : ℤ)) (m := 2 ^ 61) (by decide)
    omega
  have back : Int16.ofNat exp = d.exponent := by
    rw [← Int16.ofInt_eq_ofNat, expEq, Int16.ofInt_toInt]
  have toNat : (UInt64.ofNat m).toNat = m := UInt64.toNat_ofNat_of_lt' (by rw [UInt64.size]; omega)
  have built : flt1648 d.exponent (UInt64.ofNat m) = d := by
    rw [← Except.ok.inj read, back] at same
    exact same
  have normal := normal_of_posMsb (v := UInt64.ofNat m) (by omega)
    (posMsb_of_kept (congrArg Flt1648.exponent built))
  -- the normal mantissa that was read is the one that was sent
  have kept := flt1648_of_normal (d := { exponent := d.exponent, mantissa := UInt64.ofNat m }) normal
  refine ⟨?_, ?_⟩
  · rw [Int16.le_iff_toInt_le]
    change (0 : ℤ) ≤ _
    omega
  · rw [← built, kept]
    exact normal

theorem diff_keeps {entry entry' : MetaEntry} {a b : Arg}
    (read : parseProperty entry (.diff a b) = .ok entry') :
    entry'.version = entry.version ∧ entry'.timestamp = entry.timestamp := by
  obtain ⟨exp, _, read⟩ := bind_ok read
  obtain ⟨m, _, read⟩ := bind_ok read
  rw [← Except.ok.inj read]
  exact ⟨rfl, rfl⟩

theorem parse_diff_normal (entry : MetaEntry) {d : Flt1648} (nonneg : 0 ≤ d.exponent)
    (normal : Flt1648.Normal d) : parseProperty entry
      (.diff (intCell d.exponent.toInt) (intCell d.mantissa.toNat)) =
        .ok { entry with powDifficulty := d } := by
  have high := d.exponent.toInt_lt
  have nonneg : 0 ≤ d.exponent.toInt := Int16.le_iff_toInt_le.mp nonneg
  obtain ⟨n, eq⟩ := Int.eq_ofNat_of_zero_le nonneg
  have back : Int16.ofNat n = d.exponent := by
    rw [← Int16.ofInt_eq_ofNat, ← eq, Int16.ofInt_toInt]
  have small := normal.2
  rw [parseProperty, eq, getNumber_intCell (by omega) (by rw [UINT64_MAX]; omega),
    getNumber_intCell (by omega) (by rw [UINT64_MAX]; omega)]
  change Except.ok { entry with
    powDifficulty := flt1648 (Int16.ofNat n) (UInt64.ofNat d.mantissa.toNat) } = _
  rw [back, UInt64.ofNat_toNat, flt1648_of_normal normal]

theorem dbParseMeta_eq_iff (e : MetaEntry) : dbParseMeta (metaTerm e) = .ok (some e) ↔
    e.version = 1 ∧ e.timestamp = 0 ∧ 0 ≤ e.powDifficulty.exponent ∧
      Flt1648.Normal e.powDifficulty := by
  have shape : dbParseMeta (metaTerm e) = .ok (some e) ↔
      (properties e).foldlM parseProperty newEntry = .ok e := by
    rw [metaTerm, dbParseMeta]
    cases (properties e).foldlM parseProperty newEntry with
    | error failure => constructor <;> rintro ⟨⟩
    | ok entry =>
      refine ⟨fun same => ?_, fun same => ?_⟩
      · rw [Option.some.inj (Except.ok.inj same)]
      · rw [Except.ok.inj same]
        rfl
  rw [shape, parse_properties]
  constructor
  · intro read
    obtain ⟨entry, atVersion, read⟩ := bind_ok read
    obtain ⟨entry', atDiff, read⟩ := bind_ok read
    have same := Except.ok.inj read
    have version := version_read atVersion
    have difficulty : entry'.powDifficulty = e.powDifficulty := by
      rw [← same]
    have kept := diff_keeps atDiff
    have timestamp : UInt64.ofNat (e.timestamp.toNat / 1000000) = e.timestamp :=
      kept.2.symm.trans (by rw [← same])
    have one : e.version = 1 := by
      rw [← same]
      exact kept.1.trans (congrArg MetaEntry.version version)
    refine ⟨one, ?_, diff_read atDiff difficulty⟩
    have small := e.timestamp.toNat_lt
    have equal := congrArg UInt64.toNat timestamp
    rw [UInt64.toNat_ofNat'] at equal
    apply UInt64.toNat_inj.mp
    change e.timestamp.toNat = 0
    omega
  · rintro ⟨version, time, nonneg, normal⟩
    have one : ∀ entry : MetaEntry, parseProperty entry (.version (intCell (1 : UInt64).toNat)) =
        .ok { entry with version := 1 } := by
      intro entry
      change parseProperty entry (.version (intCell (1 : ℕ))) = _
      rw [parseProperty, getNumber_intCell (by omega) (by rw [UINT64_MAX]; omega)]
      rfl
    rw [version, one, ok_bind, parse_diff_normal _ nonneg normal, ok_bind, time]
    obtain ⟨id, previousId, v, height, timestamp, powProof, powDifficulty⟩ := e
    obtain rfl : v = 1 := version
    obtain rfl : timestamp = 0 := time
    rfl

/-- The entries that come back from their terms and from their bytes. -/
theorem codec_round_trip_iff (e : StoredEntry) :
    ((∀ more, dbParseMeta (metaTermWith more e.toMetaEntry) = .ok (some e.toMetaEntry)) ∧
      emptyEntry.read e.write = e) ↔
    e.version = 1 ∧ e.timestamp = 0 ∧ 0 ≤ e.powDifficulty.exponent ∧
      e.powDifficulty.mantissa = 0x800000000000 ∧ e.height = 0 ∧ e.rootIdMeta = 0 := by
  rw [read_write_iff]
  simp only [dbParseMeta_with, dbParseMeta_eq_iff, forall_const]
  constructor
  · rintro ⟨⟨version, _, nonneg, _⟩, time, mantissa, height, root⟩
    exact ⟨version, time, nonneg, mantissa, height, root⟩
  · rintro ⟨version, time, nonneg, mantissa, height, root⟩
    refine ⟨⟨version, time, nonneg, ?_⟩, time, mantissa, height, root⟩
    rw [Flt1648.Normal, mantissa]
    decide

/-- An entry of the second after the epoch comes back neither from its term nor from its bytes. -/
theorem second_not_restored :
    let e : StoredEntry := { newEntry with timestamp := 1000000 }
    dbParseMeta (metaTermWith false e.toMetaEntry) ≠ .ok (some e.toMetaEntry) ∧
      emptyEntry.read e.write ≠ e := by
  refine ⟨?_, ?_⟩
  · rw [dbParseMeta_with, Ne, dbParseMeta_eq_iff]
    exact fun restored => absurd restored.2.1 (by decide)
  · rw [Ne, read_write_iff]
    exact fun restored => absurd restored.1 (by decide)

end Terms

end Epilog.Global.MetaCodec
