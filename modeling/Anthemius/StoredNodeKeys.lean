import Anthemius.LittleEndianBytes
import Anthemius.NibblePaths
import Anthemius.Outcomes

/-!
# Node keys in storage

A node key is stored as its version in big-endian order, the number of nibbles and two nibbles in
each byte, so that the database keeps the keys in their own order.
-/
namespace Anthemius.Jellyfish
open Outcomes
open LittleEndianBytes (Bytes)

/-! ## Numbers in big-endian order -/

def bigEndian : ℕ → ℕ → Bytes
  | 0, _ => []
  | width + 1, v => UInt8.ofNat (v / 256 ^ width) :: bigEndian width (v % 256 ^ width)

def ofBigEndian (bytes : Bytes) : ℕ := bytes.foldl (fun v byte => 256 * v + byte.toNat) 0

@[simp] theorem length_bigEndian (width v : ℕ) : (bigEndian width v).length = width := by
  induction width generalizing v with
  | zero => rfl
  | succ width ih => rw [bigEndian, List.length_cons, ih]

theorem ofBigEndian_cons (byte : UInt8) (bytes : Bytes) :
    ofBigEndian (byte :: bytes) = byte.toNat * 256 ^ bytes.length + ofBigEndian bytes := by
  induction bytes using List.reverseRecOn with
  | nil =>
    rw [List.length_nil, pow_zero, Nat.mul_one]
    exact (Nat.zero_add _).trans (Nat.add_zero _).symm
  | append_singleton bytes last ih =>
    rw [← List.cons_append, ofBigEndian, List.foldl_append, ofBigEndian, List.foldl_append,
      List.length_append, List.length_singleton, pow_succ]
    change 256 * ofBigEndian (byte :: bytes) + last.toNat =
      _ + (256 * ofBigEndian bytes + last.toNat)
    rw [ih]
    ring

theorem ofBigEndian_lt (bytes : Bytes) : ofBigEndian bytes < 256 ^ bytes.length := by
  induction bytes with
  | nil => exact Nat.one_pos
  | cons byte bytes ih =>
    have hbyte := byte.toNat_lt
    rw [ofBigEndian_cons, List.length_cons, pow_succ, Nat.mul_comm (256 ^ _)]
    calc byte.toNat * 256 ^ bytes.length + ofBigEndian bytes
        < byte.toNat * 256 ^ bytes.length + 256 ^ bytes.length := Nat.add_lt_add_left ih _
      _ = (byte.toNat + 1) * 256 ^ bytes.length := by ring
      _ ≤ 256 * 256 ^ bytes.length := Nat.mul_le_mul_right _ (by omega)

theorem ofBigEndian_bigEndian {width v : ℕ} (h : v < 256 ^ width) :
    ofBigEndian (bigEndian width v) = v := by
  induction width generalizing v with
  | zero =>
    rw [pow_zero] at h
    obtain rfl : v = 0 := by omega
    rfl
  | succ width ih =>
    have hpos : 0 < 256 ^ width := Nat.pow_pos (by decide)
    have hhigh : v / 256 ^ width < 256 := by
      rw [Nat.div_lt_iff_lt_mul hpos, ← pow_succ']
      exact h
    rw [bigEndian, ofBigEndian_cons, length_bigEndian, ih (Nat.mod_lt _ hpos),
      UInt8.toNat_ofNat_of_lt' hhigh]
    exact Nat.div_add_mod' v _

theorem bigEndian_ofBigEndian (bytes : Bytes) :
    bigEndian bytes.length (ofBigEndian bytes) = bytes := by
  induction bytes with
  | nil => rfl
  | cons byte bytes ih =>
    have hlt := ofBigEndian_lt bytes
    have hpos : 0 < 256 ^ bytes.length := Nat.pow_pos (by decide)
    rw [List.length_cons, bigEndian, ofBigEndian_cons, Nat.mul_comm, Nat.mul_add_mod,
      Nat.mod_eq_of_lt hlt, ih, Nat.mul_add_div hpos, Nat.div_eq_of_lt hlt, Nat.add_zero,
      UInt8.ofNat_toNat]

/-- Words of one width are ordered as their values. -/
theorem bigEndian_lt_iff {width v v' : ℕ} (h : v < 256 ^ width) (h' : v' < 256 ^ width) :
    bigEndian width v < bigEndian width v' ↔ v < v' := by
  induction width generalizing v v' with
  | zero =>
    rw [pow_zero] at h h'
    simp [bigEndian, show v = 0 by omega, show v' = 0 by omega]
  | succ width ih =>
    have hpos : 0 < 256 ^ width := Nat.pow_pos (by decide)
    have hhigh : ∀ {u}, u < 256 ^ (width + 1) → u / 256 ^ width < 256 := fun hu => by
      rw [Nat.div_lt_iff_lt_mul hpos, ← pow_succ']
      exact hu
    have hv := Nat.div_add_mod v (256 ^ width)
    have hv' := Nat.div_add_mod v' (256 ^ width)
    have hlow := Nat.mod_lt v hpos
    have hlow' := Nat.mod_lt v' hpos
    rw [bigEndian, bigEndian, List.cons_lt_cons_iff, ih hlow hlow', UInt8.lt_iff_toNat_lt,
      ← UInt8.toNat_inj, UInt8.toNat_ofNat_of_lt' (hhigh h), UInt8.toNat_ofNat_of_lt' (hhigh h')]
    constructor
    · rintro (hlt | ⟨heq, hlt⟩)
      · have := Nat.mul_le_mul_left (256 ^ width) (Nat.succ_le_of_lt hlt)
        rw [Nat.mul_succ] at this
        omega
      · rw [heq] at hv
        omega
    · intro hlt
      obtain hdiv | hdiv := Nat.lt_or_eq_of_le (Nat.div_le_div_right hlt.le (c := 256 ^ width))
      · exact Or.inl hdiv
      · rw [hdiv] at hv
        exact Or.inr ⟨hdiv, by omega⟩

/-- Words of one width in front decide, unless they are the same. -/
theorem append_lt_append_iff {first first' rest rest' : Bytes}
    (h : first.length = first'.length) : first ++ rest < first' ++ rest' ↔
      first < first' ∨ first = first' ∧ rest < rest' := by
  induction first generalizing first' with
  | nil =>
    obtain rfl : first' = [] := List.length_eq_zero_iff.mp h.symm
    simp
  | cons byte first ih =>
    obtain ⟨byte', first', rfl⟩ := List.exists_cons_of_length_eq_add_one h.symm
    rw [List.cons_append, List.cons_append, List.cons_lt_cons_iff, List.cons_lt_cons_iff,
      ih (Nat.succ.inj h), List.cons.injEq]
    tauto

/-! ## Nibble paths -/

/-- `NibblePath`: two nibbles in each byte, and a zero behind the last of an odd number. -/
@[ext]
structure NibbleBytes where
  numNibbles : ℕ
  bytes : Bytes
  bounded : numNibbles ≤ rootNibbleHeight
  length_bytes : (numNibbles + 1) / 2 = bytes.length
  padded : numNibbles % 2 = 1 → bytes.getLast?.any (· &&& 0x0F == 0)

inductive DecodeError
  /-- "failed to fill whole buffer" -/
  | unexpectedEof
  /-- "Invalid number of nibbles: {}" -/
  | invalidNumNibbles (numNibbles : ℕ)
  /-- "encoded num_nibbles {} mismatches nibble path bytes {:?}" -/
  | mismatchedBytes (numNibbles : ℕ) (nibbleBytes : Bytes)
  /-- "Padding nibble expected to be 0, got: {}" -/
  | paddingNibble (padding : UInt8)
  /-- "Missing tag due to empty input" -/
  | emptyInput
  /-- "lead tag byte is unknown: {}" -/
  | unknownTag (tag : UInt8)
  /-- "No children found in internal node" -/
  | noChildren
  /-- "Non-existent leaf bits set, existing: {}, leaves: {}" -/
  | extraLeaves (existing leaves : BitVec 16)
  /-- "not enough bytes left, children: {}, bytes: {}" -/
  | notEnoughBytes (children bytes : ℕ)
  /-- An error of the constructor of the node. -/
  | illogicalChildren

namespace NibbleBytes

def newEven (bytes : Bytes) : Outcome DecodeError NibbleBytes :=
  if h : bytes.length ≤ rootNibbleHeight / 2 then
    pure ⟨bytes.length * 2, bytes, by omega, by omega, by omega⟩
  else crash

def newOdd (bytes : Bytes) : Outcome DecodeError NibbleBytes :=
  if h : bytes.length ≤ rootNibbleHeight / 2 ∧ bytes.getLast?.any (· &&& 0x0F == 0) then
    pure ⟨bytes.length * 2 - 1, bytes, by omega, by
      obtain ⟨last, hlast, -⟩ := (Option.any_eq_true _ _).mp h.2
      have := List.length_pos_of_mem (List.mem_of_getLast? hlast)
      omega, fun _ => h.2⟩
  else crash

variable {bytes : Bytes} {path : NibbleBytes}

theorem newEven_returns (h : path.numNibbles % 2 = 0) : Returns (newEven path.bytes) path := by
  have hlength := path.length_bytes
  have hbounded : path.numNibbles ≤ 64 := path.bounded
  have hle : path.bytes.length ≤ rootNibbleHeight / 2 := show _ ≤ 32 by omega
  rw [newEven, dif_pos hle, returns_pure]
  refine NibbleBytes.ext ?_ rfl
  change path.bytes.length * 2 = _
  omega

theorem newOdd_returns (h : path.numNibbles % 2 = 1) : Returns (newOdd path.bytes) path := by
  have hlength := path.length_bytes
  have hbounded : path.numNibbles ≤ 64 := path.bounded
  have hle : path.bytes.length ≤ rootNibbleHeight / 2 := show _ ≤ 32 by omega
  rw [newOdd, dif_pos ⟨hle, path.padded h⟩, returns_pure]
  refine NibbleBytes.ext ?_ rfl
  change path.bytes.length * 2 - 1 = _
  omega

theorem of_newEven (h : Returns (newEven bytes) path) :
    path.bytes = bytes ∧ path.numNibbles = bytes.length * 2 := by
  unfold newEven at h
  split at h
  · rw [← returns_pure.mp h]
    exact ⟨rfl, rfl⟩
  · exact absurd h returns_crash

theorem of_newOdd (h : Returns (newOdd bytes) path) :
    path.bytes = bytes ∧ path.numNibbles = bytes.length * 2 - 1 := by
  unfold newOdd at h
  split at h
  · rw [← returns_pure.mp h]
    exact ⟨rfl, rfl⟩
  · exact absurd h returns_crash

end NibbleBytes

/-! ## Node keys -/

/-- `NodeKey`, with the fields that are stored. -/
structure StoredNodeKey where
  version : UInt64
  nibblePath : NibbleBytes

def readU8 : Bytes → Outcome DecodeError (UInt8 × Bytes)
  | [] => throw .unexpectedEof
  | byte :: rest => pure (byte, rest)

/-- The first `width` bytes and the rest. -/
def readExact (width : ℕ) (data : Bytes) : Outcome DecodeError (Bytes × Bytes) :=
  if width ≤ data.length then pure (data.take width, data.drop width) else throw .unexpectedEof

theorem readExact_append (first rest : Bytes) :
    Returns (readExact first.length (first ++ rest)) (first, rest) := by
  rw [readExact, if_pos (by rw [List.length_append]; omega), List.take_left, List.drop_left]
  exact returns_pure.mpr rfl

theorem of_readExact {width : ℕ} {data first rest : Bytes}
    (h : Returns (readExact width data) (first, rest)) :
    data = first ++ rest ∧ first.length = width := by
  unfold readExact at h
  split at h
  next hle =>
    cases returns_pure.mp h
    exact ⟨(List.take_append_drop _ _).symm, List.length_take_of_le hle⟩
  · exact absurd h returns_throw

namespace StoredNodeKey

def encode (key : StoredNodeKey) : Bytes :=
  bigEndian 8 key.version.toNat ++
    (UInt8.ofNat key.nibblePath.numNibbles :: key.nibblePath.bytes)

/-- The padding of an odd number of nibbles is checked before the path is made. -/
def decodePath (numNibbles : ℕ) (nibbleBytes : Bytes) : Outcome DecodeError NibbleBytes :=
  if numNibbles % 2 = 0 then NibbleBytes.newEven nibbleBytes
  else do
    let last ← expect nibbleBytes.getLast?
    ensure (last &&& 0x0F = 0) (.paddingNibble (last &&& 0x0F))
    NibbleBytes.newOdd nibbleBytes

def decode (val : Bytes) : Outcome DecodeError StoredNodeKey := do
  let (version, val) ← readExact 8 val
  let (numNibbles, nibbleBytes) ← readU8 val
  ensure (numNibbles.toNat ≤ rootNibbleHeight) (.invalidNumNibbles numNibbles.toNat)
  ensure ((numNibbles.toNat + 1) / 2 = nibbleBytes.length)
    (.mismatchedBytes numNibbles.toNat nibbleBytes)
  let nibblePath ← decodePath numNibbles.toNat nibbleBytes
  pure ⟨UInt64.ofNat (ofBigEndian version), nibblePath⟩

/-- The derived order: by version, by number of nibbles, by bytes. -/
def Precedes (key key' : StoredNodeKey) : Prop :=
  key.version < key'.version ∨ key.version = key'.version ∧
    (key.nibblePath.numNibbles < key'.nibblePath.numNibbles ∨
      key.nibblePath.numNibbles = key'.nibblePath.numNibbles ∧
        key.nibblePath.bytes < key'.nibblePath.bytes)

variable {key key' : StoredNodeKey} {val : Bytes}

theorem version_lt (key : StoredNodeKey) : key.version.toNat < 256 ^ 8 := key.version.toNat_lt

theorem numNibbles_toNat (path : NibbleBytes) :
    (UInt8.ofNat path.numNibbles).toNat = path.numNibbles :=
  UInt8.toNat_ofNat_of_lt' (lt_of_le_of_lt path.bounded (by decide))

theorem decodePath_returns (path : NibbleBytes) :
    Returns (decodePath path.numNibbles path.bytes) path := by
  unfold decodePath
  split
  next heven => exact NibbleBytes.newEven_returns heven
  next hodd =>
    have hodd : path.numNibbles % 2 = 1 := by omega
    obtain ⟨last, hlast, hzero⟩ := (Option.any_eq_true _ _).mp (path.padded hodd)
    refine returns_bind.mpr ⟨last, returns_expect.mpr hlast, ?_⟩
    exact returns_bind.mpr ⟨(), returns_ensure.mpr (by simpa using hzero),
      NibbleBytes.newOdd_returns hodd⟩

theorem of_decodePath {numNibbles : ℕ} {nibbleBytes : Bytes} {path : NibbleBytes}
    (hlength : (numNibbles + 1) / 2 = nibbleBytes.length)
    (h : Returns (decodePath numNibbles nibbleBytes) path) :
    path.numNibbles = numNibbles ∧ path.bytes = nibbleBytes := by
  unfold decodePath at h
  split at h
  next heven =>
    obtain ⟨hbytes, hnum⟩ := NibbleBytes.of_newEven h
    exact ⟨by omega, hbytes⟩
  next hodd =>
    obtain ⟨last, -, h⟩ := returns_bind.mp h
    obtain ⟨_, -, h⟩ := returns_bind.mp h
    obtain ⟨hbytes, hnum⟩ := NibbleBytes.of_newOdd h
    exact ⟨by omega, hbytes⟩

theorem decode_encode (key : StoredNodeKey) : Returns (decode key.encode) key := by
  have hread := readExact_append (bigEndian 8 key.version.toNat)
    (UInt8.ofNat key.nibblePath.numNibbles :: key.nibblePath.bytes)
  rw [length_bigEndian] at hread
  refine returns_bind.mpr ⟨_, hread, returns_bind.mpr ⟨_, returns_pure.mpr rfl, ?_⟩⟩
  dsimp only
  rw [numNibbles_toNat, ofBigEndian_bigEndian key.version_lt, UInt64.ofNat_toNat]
  refine returns_bind.mpr ⟨(), returns_ensure.mpr key.nibblePath.bounded, ?_⟩
  refine returns_bind.mpr ⟨(), returns_ensure.mpr key.nibblePath.length_bytes, ?_⟩
  exact returns_bind.mpr ⟨_, decodePath_returns key.nibblePath, returns_pure.mpr rfl⟩

theorem encode_of_decode (h : Returns (decode val) key) : key.encode = val := by
  obtain ⟨⟨version, rest⟩, hread, hrest⟩ := returns_bind.mp h
  obtain ⟨hval, hlength⟩ := of_readExact hread
  obtain ⟨⟨numNibbles, nibbleBytes⟩, hbyte, hchecks⟩ := returns_bind.mp hrest
  obtain ⟨_, -, hchecks⟩ := returns_bind.mp hchecks
  obtain ⟨_, hbytes, hchecks⟩ := returns_bind.mp hchecks
  obtain ⟨path, hpath, hkey⟩ := returns_bind.mp hchecks
  obtain ⟨hnum, hsame⟩ := of_decodePath (returns_ensure.mp hbytes) hpath
  have hlt := ofBigEndian_lt version
  rw [hlength] at hlt
  have hcons : rest = numNibbles :: nibbleBytes := by
    cases rest with
    | nil => exact absurd hbyte returns_throw
    | cons byte rest =>
      cases returns_pure.mp hbyte
      rfl
  rw [hval, hcons, ← returns_pure.mp hkey, encode]
  dsimp only
  rw [hnum, hsame, UInt8.ofNat_toNat, UInt64.toNat_ofNat_of_lt' hlt, ← hlength,
    bigEndian_ofBigEndian]

theorem encode_lt_encode_iff : key.encode < key'.encode ↔ key.Precedes key' := by
  rw [encode, encode, append_lt_append_iff (by rw [length_bigEndian, length_bigEndian]),
    bigEndian_lt_iff key.version_lt key'.version_lt, List.cons_lt_cons_iff, UInt8.lt_iff_toNat_lt,
    ← UInt8.toNat_inj, numNibbles_toNat, numNibbles_toNat, Precedes, UInt64.lt_iff_toNat_lt]
  have hversion : bigEndian 8 key.version.toNat = bigEndian 8 key'.version.toNat ↔
      key.version = key'.version := by
    constructor
    · intro heq
      have hvalue := congrArg ofBigEndian heq
      rw [ofBigEndian_bigEndian key.version_lt, ofBigEndian_bigEndian key'.version_lt] at hvalue
      exact UInt64.toNat_inj.mp hvalue
    · exact fun heq => by rw [heq]
  rw [hversion]

end StoredNodeKey

end Anthemius.Jellyfish
