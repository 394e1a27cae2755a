import QuorumHotstuff.Lib.Rlp.Stream

/-!
# Integers

How `rlp/encode.go` writes a `uint64` and a `*big.Int`, and how `rlp/decode.go` reads them back.
`encodeUint` writes the shortest big-endian form of a number under a header, or the number's own
byte below `0x80`.  `writeBigInt` goes through `encodeUint` up to 64 bits; beyond, it writes a
header for `((bitlen + 7) & -8) >> 3` bytes and fills a zeroed field of that length from its end,
word by word from `i.Bits()`.  `Stream.uint` reads a number of at most `maxbits` bits and
`decodeBigInt` one of any size; `DecodeBytes` into an integer runs one of them and refuses input
left over.

Both writers write `Lib.Rlp`'s encoding of the shortest form (`encodeUint_eq`, `writeBigInt_eq`):
the field has the length of the shortest form (`byteLength_eq_bitLen`), and the word loop leaves
the big-endian bytes of the number in it (`putWords_natWords`).  Both readers take what `Bytes`
reads when it has no leading zero byte, `Stream.uint` when it has at most `maxbits / 8` bytes too
(`uint_eq_ok`, `decodeBigInt_eq_ok`); a string without a leading zero byte is the shortest form of
its value (`shortest_iff`).  So `DecodeBytes` into an integer accepts what the writers write and
nothing else (`decodeBytesWith_decodeBigInt`, `decodeBytesWith_uint`).

`AppendUint64` of `rlp/raw.go` appends the same encoding as `encodeUint`: its switch on the size
of the number picks the length of the shortest form (`appendUint64_eq`).

Integers are natural numbers: the negative `*big.Int` that `writeBigInt` refuses is not modelled,
and a `big.Word` has the 64 bits of a 64-bit platform.
-/

namespace QuorumHotstuff.Lib.Rlp

open QuorumHotstuff.Lib

/-! ## Writing -/

/-- `big.Int.BitLen`: the number of bits of `i`, zero for zero. -/
def bitLen (i : Nat) : Nat := if i = 0 then 0 else Nat.log2 i + 1

/-- `wordBytes`: the bytes of a `big.Word` on a 64-bit platform. -/
def wordBytes : Nat := 8

/-- The words of `i`, least significant first, in at most `fuel` steps. -/
def natWordsAux : Nat → Nat → List Nat
  | 0, _ => []
  | fuel + 1, i => if i = 0 then [] else i % 2 ^ 64 :: natWordsAux fuel (i / 2 ^ 64)

/-- `big.Int.Bits`: the 64-bit words of `i`, least significant first, none for zero. -/
def natWords (i : Nat) : List Nat := natWordsAux i i

/-- The inner loop of `writeBigInt`: at most `j` bytes of the word `d`, its last byte first, each
    stored just below `index` while `index` is above zero. -/
def putWordBytes : Nat → Nat → Nat → List Nat → Nat × List Nat
  | 0, _, index, buf => (index, buf)
  | j + 1, d, index, buf =>
    if index > 0 then putWordBytes j (d >>> 8) (index - 1) (buf.set (index - 1) (d % 256))
    else (index, buf)

/-- The outer loop of `writeBigInt`: the words one after another, least significant first. -/
def putWords : List Nat → Nat → List Nat → List Nat
  | [], _, buf => buf
  | d :: ds, index, buf =>
    let next := putWordBytes wordBytes d index buf
    putWords ds next.1 next.2

namespace Encbuf

/-- `encodeUint`: zero is the empty string, a number below `0x80` its own byte, and a larger one
    its `putint` bytes under a header. -/
def encodeUint (w : Encbuf) (i : Nat) : Encbuf :=
  if i = 0 then { w with str := w.str ++ [0x80] }
  else if i < 128 then { w with str := w.str ++ [i] }
  else { w with str := w.str ++ (0x80 + (putint i).length) :: putint i }

/-- `writeBigInt`: up to 64 bits through `encodeUint` of `i.Uint64()`; beyond, a header and a
    zeroed field of `length` bytes that the words of `i.Bits()` fill from its end. -/
def writeBigInt (w : Encbuf) (i : Nat) : Encbuf :=
  let bitlen := bitLen i
  if bitlen ≤ 64 then w.encodeUint (i % 2 ^ 64)
  else
    -- `& -8` clears the low three bits
    let length := ((bitlen + 7) - (bitlen + 7) % 8) >>> 3
    let w := w.encodeStringHeader length
    { w with str := w.str ++ putWords (natWords i) length (List.replicate length 0) }

/-- `writeBigIntPtr`: a nil pointer is written as zero. -/
def writeBigIntPtr (w : Encbuf) : Option Nat → Encbuf
  | none => { w with str := w.str ++ [0x80] }
  | some i => w.writeBigInt i

end Encbuf

/-- The case of the switch in `AppendUint64` that a number from `128` on falls in: the first `k`
    from one to seven with `i < 1 << 8k`, else eight. -/
def appendUint64Size (i : Nat) : Nat :=
  if i < 1 <<< 8 then 1 else if i < 1 <<< 16 then 2 else if i < 1 <<< 24 then 3
  else if i < 1 <<< 32 then 4 else if i < 1 <<< 40 then 5 else if i < 1 <<< 48 then 6
  else if i < 1 <<< 56 then 7 else 8

/-- The bytes a case of that switch appends after its header, `byte(i>>8(k-1))` down to
    `byte(i)`. -/
def appendUint64Bytes (k i : Nat) : List Nat :=
  (List.range k).reverse.map fun j => (i >>> (8 * j)) % 256

/-- `AppendUint64`: the encoding of a `uint64` appended to `b`, with the byte count of each case
    written out: `0x80` for zero, the number's own byte below `128`, else `0x80 + k` and `k`
    bytes. -/
def appendUint64 (b : List Nat) (i : Nat) : List Nat :=
  if i = 0 then b ++ [0x80]
  else if i < 128 then b ++ [i]
  else b ++ (0x80 + appendUint64Size i) :: appendUint64Bytes (appendUint64Size i) i

/-! ## Reading -/

namespace Stream

/-- `uint`: a number of at most `maxbits` bits.  A zero byte on its own is refused
    (`ErrCanonInt`), and so is a string longer than `maxbits / 8` bytes (`errUintOverflow`), a
    leading zero byte (the `ErrCanonSize` of `readUint`, turned into `ErrCanonInt`) and a single
    byte below `0x80` under a header (`ErrCanonSize`). -/
def uint (s : Stream) (maxbits : Nat) : Except StreamErr (Nat × Stream) := do
  let (k, s) ← s.kind
  match k with
  | .byte b => if b = 0 then .error .canonInt else pure (b, { s with cached := none })
  | .string size =>
    if maxbits / 8 < size then .error .uintOverflow
    else
      match s.readUint size with
      | .error .canonSize => .error .canonInt
      | .error e => .error e
      | .ok (v, s) => if 0 < size ∧ v < 128 then .error .canonSize else pure (v, s)
  | .list _ => .error .expectedString

end Stream

/-- `decodeBigInt`: the string `Bytes` reads, refused with a leading zero byte. -/
def decodeBigInt (s : Stream) : Except StreamErr (Nat × Stream) := do
  let (b, s) ← s.bytes
  if 0 < b.length ∧ b.headD 0 = 0 then .error .canonInt else pure (beValue b, s)

/-- `DecodeBytes` into a value that `dec` reads: the value, and no input left over
    (`ErrMoreThanOneValue`). -/
def decodeBytesWith {α : Type} (dec : Stream → Except StreamErr (α × Stream)) (b : List Nat) :
    Except StreamErr α := do
  let (v, s) ← dec (Stream.reset b)
  if 0 < s.input.length then .error .moreThanOneValue else pure v

/-! ## Bit and byte lengths -/

theorem lt_two_pow_iff_bitLen_le {i k : Nat} : i < 2 ^ k ↔ bitLen i ≤ k := by
  unfold bitLen
  split_ifs with hi
  · simp [hi]
  · rw [← Nat.log2_lt hi]
    omega

/-- The shortest form of `i` has `bitLen i` rounded up to bytes. -/
theorem byteLength_eq_bitLen (i : Nat) : byteLength i = (bitLen i + 7) / 8 := by
  -- both are the least `m` with `i < 256 ^ m`
  have hle : ∀ m, byteLength i ≤ m ↔ (bitLen i + 7) / 8 ≤ m := by
    intro m
    rw [← lt_pow_iff_byteLength_le, show (256 : Nat) ^ m = 2 ^ (8 * m) by rw [Nat.pow_mul],
      lt_two_pow_iff_bitLen_le]
    omega
  exact Nat.le_antisymm ((hle _).mpr (Nat.le_refl _)) ((hle _).mp (Nat.le_refl _))

/-- The field `writeBigInt` sizes from the bit length is as long as the shortest form. -/
theorem bigIntLength_eq (i : Nat) :
    ((bitLen i + 7) - (bitLen i + 7) % 8) >>> 3 = byteLength i := by
  rw [Nat.shiftRight_eq_div_pow, byteLength_eq_bitLen]
  omega

/-! ## The word loop -/

/-- Storing into the last of the zeros in front of `B`. -/
theorem set_replicate_append (k d : Nat) (B : List Nat) :
    (List.replicate (k + 1) 0 ++ B).set k d = List.replicate k 0 ++ (d :: B) := by
  rw [List.replicate_succ', List.append_assoc, List.set_append_right _ _ (by simp)]
  simp

/-- The inner loop stores the last `min j index` bytes of `d` below `index`, in a field that is
    zero there. -/
theorem putWordBytes_spec (j d index : Nat) (B : List Nat) :
    putWordBytes j d index (List.replicate index 0 ++ B) =
      (index - min j index,
        List.replicate (index - min j index) 0 ++ beBytes (min j index) d ++ B) := by
  induction j generalizing d index B with
  | zero => simp [putWordBytes, beBytes]
  | succ j ih =>
    unfold putWordBytes
    split_ifs with hpos
    · obtain ⟨k, rfl⟩ : ∃ k, index = k + 1 := ⟨index - 1, by omega⟩
      have hmin : min (j + 1) (k + 1) = min j k + 1 := by omega
      rw [Nat.add_sub_cancel, set_replicate_append, ih, hmin, beBytes, Nat.shiftRight_eq_div_pow]
      simp
    · have hzero : index = 0 := by omega
      subst hzero
      simp [beBytes]

/-- The words of `i` from the least significant on store the last `min index (8 * words)` bytes
    of `i` below `index`. -/
theorem putWords_natWordsAux (fuel i index : Nat) (B : List Nat) :
    putWords (natWordsAux fuel i) index (List.replicate index 0 ++ B) =
      List.replicate (index - min index (8 * (natWordsAux fuel i).length)) 0 ++
        beBytes (min index (8 * (natWordsAux fuel i).length)) i ++ B := by
  induction fuel generalizing i index B with
  | zero => simp [natWordsAux, putWords, beBytes]
  | succ fuel ih =>
    unfold natWordsAux
    split_ifs with hi
    · simp [putWords, beBytes]
    · -- the low word fills the last `min 8 index` bytes, the higher words those in front
      rw [putWords, putWordBytes_spec, wordBytes, List.append_assoc, ih]
      set L := (natWordsAux fuel (i / 2 ^ 64)).length
      have hm : min index (8 * (L + 1)) = min (index - min 8 index) (8 * L) + min 8 index := by
        omega
      have hhigh : beBytes (min (index - min 8 index) (8 * L)) (i / 2 ^ 64) =
          beBytes (min (index - min 8 index) (8 * L)) (i / 256 ^ min 8 index) := by
        by_cases h8 : 8 ≤ index
        · rw [show min 8 index = 8 by omega]
          rfl
        · rw [show index - min 8 index = 0 by omega, Nat.zero_min]
          rfl
      have hlow : beBytes (min 8 index) (i % 2 ^ 64) = beBytes (min 8 index) i :=
        @beBytes_mod (min 8 index) 8 (by omega) i
      rw [List.length_cons, hm, beBytes_add, hhigh, hlow]
      simp only [List.append_assoc]
      congr 2
      omega

/-- The words of `i` cover it. -/
theorem lt_pow_natWordsAux (fuel i : Nat) (h : i ≤ fuel) :
    i < 256 ^ (8 * (natWordsAux fuel i).length) := by
  induction fuel generalizing i with
  | zero =>
    have hzero : i = 0 := by omega
    simp [hzero]
  | succ fuel ih =>
    unfold natWordsAux
    split_ifs with hi
    · simp [hi]
    · set L := (natWordsAux fuel (i / 2 ^ 64)).length
      have hrec : i / 2 ^ 64 < 256 ^ (8 * L) := ih (i / 2 ^ 64) (by omega)
      have hpow : 256 ^ (8 * (L + 1)) = 2 ^ 64 * 256 ^ (8 * L) := by
        rw [Nat.mul_succ, Nat.pow_add, Nat.mul_comm]
        rfl
      -- `i` lies below the multiple of `2 ^ 64` after its high words
      have hmul : 2 ^ 64 * (i / 2 ^ 64 + 1) ≤ 2 ^ 64 * 256 ^ (8 * L) := Nat.mul_le_mul_left _ hrec
      rw [List.length_cons, hpow]
      omega

/-- The word loop leaves the shortest form of `i` in a zeroed field of its length. -/
theorem putWords_natWords (i : Nat) :
    putWords (natWords i) (byteLength i) (List.replicate (byteLength i) 0) = natBytes i := by
  have hle : byteLength i ≤ 8 * (natWordsAux i i).length :=
    byteLength_le_of_lt_pow (lt_pow_natWordsAux i i (Nat.le_refl i))
  have h := putWords_natWordsAux i i (byteLength i) []
  rw [List.append_nil, List.append_nil, Nat.min_eq_left hle, Nat.sub_self] at h
  rw [natWords, h, natBytes]
  rfl

/-! ## What the writers write -/

/-- A positive number below `256` is its own shortest form. -/
theorem natBytes_of_lt_256 {i : Nat} (hpos : 0 < i) (hi : i < 256) : natBytes i = [i] := by
  have hlen : byteLength i = 1 := by
    have hle := @byteLength_le_of_lt_pow i 1 (by simpa using hi)
    have hge := byteLength_pos hpos
    omega
  simp [natBytes, hlen, beBytes, Nat.mod_eq_of_lt hi]

/-- The encoding of the shortest form: `0x80` for zero, a number below `0x80` as its own byte,
    and a larger one under a header. -/
theorem encodeString_natBytes (i : Nat) :
    encodeString (natBytes i) =
      if i = 0 then [0x80]
      else if i < 128 then [i] else header 0x80 (byteLength i) ++ natBytes i := by
  split_ifs with hzero hsmall
  · subst hzero
    rfl
  · rw [natBytes_of_lt_256 (by omega) (by omega), encodeString, if_pos (by simp; omega)]
  · rw [encodeString, if_neg, natBytes_length]
    -- a shortest form of one byte is the number itself, here from `0x80` on
    rintro ⟨hone, hhead⟩
    rw [natBytes_length] at hone
    have hlt : i < 256 := (@lt_pow_iff_byteLength_le i 1).mpr (by omega)
    rw [natBytes_of_lt_256 (by omega) hlt] at hhead
    simp at hhead
    omega

namespace Encbuf

/-- `encodeUint` writes the encoding of the shortest form of a `uint64`. -/
theorem encodeUint_eq (w : Encbuf) {i : Nat} (hi : i < 2 ^ 64) :
    w.encodeUint i = { w with str := w.str ++ Rlp.encodeString (natBytes i) } := by
  rw [encodeString_natBytes, encodeUint]
  split_ifs with hzero hsmall
  · rfl
  · rfl
  · -- at most eight bytes, so the header is one byte
    have hlen := byteLength_le_eight hi
    rw [putint_eq_natBytes (by omega), natBytes_length, header, if_pos (by omega)]
    rfl

/-- `writeBigInt` writes the encoding of the shortest form, on either path. -/
theorem writeBigInt_eq (w : Encbuf) (i : Nat) :
    w.writeBigInt i = { w with str := w.str ++ Rlp.encodeString (natBytes i) } := by
  unfold writeBigInt
  dsimp only
  split_ifs with h64
  · have hi := lt_two_pow_iff_bitLen_le.mpr h64
    rw [Nat.mod_eq_of_lt hi, encodeUint_eq w hi]
  · -- beyond 64 bits the field is the shortest form, under a header
    have hbig : ¬ i < 2 ^ 64 := mt lt_two_pow_iff_bitLen_le.mp h64
    rw [bigIntLength_eq, putWords_natWords, encodeStringHeader_eq, encodeString_natBytes,
      if_neg (by omega), if_neg (by omega)]
    simp

/-- A nil `*big.Int` is written as zero. -/
theorem writeBigIntPtr_none (w : Encbuf) : w.writeBigIntPtr none = w.writeBigInt 0 := by
  rw [writeBigInt_eq]
  rfl

end Encbuf

theorem appendUint64Bytes_eq (k i : Nat) : appendUint64Bytes k i = beBytes k i := by
  induction k with
  | zero => rfl
  | succ k ih =>
    -- the most significant byte comes first, then the `k` below it
    have hhigh : (i >>> (8 * k)) % 256 = i / 256 ^ k % 256 := by
      rw [Nat.shiftRight_eq_div_pow, pow_mul]
      rfl
    rw [appendUint64Bytes, List.range_succ, List.reverse_append, List.map_append, ← appendUint64Bytes,
      ih, Nat.add_comm, beBytes_add, List.reverse_singleton, List.map_singleton, hhigh]
    simp [beBytes]

theorem byteLength_eq_succ {i k : Nat} (hlo : 256 ^ k ≤ i) (hhi : i < 256 ^ (k + 1)) :
    byteLength i = k + 1 := by
  have hle := byteLength_le_of_lt_pow hhi
  have hgt : ¬ byteLength i ≤ k := fun h => absurd (lt_pow_iff_byteLength_le.mpr h) (not_lt.mpr hlo)
  omega

/-- The switch picks the length of the shortest form. -/
theorem appendUint64Size_eq {i : Nat} (hlo : 128 ≤ i) (hhi : i < 2 ^ 64) :
    appendUint64Size i = byteLength i := by
  unfold appendUint64Size
  simp only [Nat.one_shiftLeft]
  split_ifs <;> symm <;> apply byteLength_eq_succ <;> norm_num <;> omega

/-- `AppendUint64` appends the encoding of the number's shortest form. -/
theorem appendUint64_eq (b : List Nat) {i : Nat} (hi : i < 2 ^ 64) :
    appendUint64 b i = b ++ encodeString (natBytes i) := by
  rw [appendUint64, encodeString_natBytes]
  split_ifs with hzero hsmall
  · rfl
  · rfl
  · have hlen := byteLength_le_eight hi
    rw [appendUint64Size_eq (by omega) hi, appendUint64Bytes_eq, header, if_pos (by omega), natBytes]
    rfl

example : appendUint64 [] 300 = [0x82, 0x01, 0x2C] := by decide

/-! ## What the readers accept -/

namespace Stream

theorem kind_of_cached {s : Stream} {k : Kind} (hk : s.cached = some k) : s.kind = .ok (k, s) := by
  simp [kind, hk, pure, Except.pure]

/-- `Kind` caches the kind it returns. -/
theorem kind_cached {s s' : Stream} {k : Kind} (h : s.kind = .ok (k, s')) :
    s'.cached = some k := by
  unfold kind at h
  split at h
  · next hk =>
    cases h
    exact hk
  · split_ifs at h
    rw [bind_eq_ok] at h
    obtain ⟨⟨k₁, s₁⟩, -, h⟩ := h
    dsimp only at h
    split at h <;> split_ifs at h <;> cases h <;> rfl

theorem bytes_of_kind_error {s : Stream} {e : StreamErr} (h : s.kind = .error e) :
    s.bytes = .error e := by
  unfold bytes
  rw [h]
  rfl

/-- `Bytes` reads from where `Kind` leaves the stream, since `Kind` then answers from its cache. -/
theorem bytes_eq_of_kind {s s₁ : Stream} {k : Kind} (h : s.kind = .ok (k, s₁)) :
    s.bytes = s₁.bytes := by
  unfold bytes
  rw [h, kind_of_cached (kind_cached h), bind_ok]

/-- `readUint` reads `size` bytes and refuses a leading zero from two bytes on. -/
theorem readUint_eq_ok {s s' : Stream} {size v : Nat} :
    s.readUint size = .ok (v, s') ↔
      ∃ bs, s.readFull size = .ok (bs, s') ∧ ¬ (1 < size ∧ bs.headD 0 = 0) ∧ v = beValue bs := by
  match size with
  | 0 =>
    -- nothing is read, and `Kind` is rearmed
    have hfull : s.readFull 0 = .ok ([], { s with cached := none }) :=
      readFull_eq_ok.mpr ⟨⟨Nat.zero_le _, fun _ _ => Nat.zero_le _⟩, Nat.zero_le _, rfl,
        ((advance_setCached s none 0).symm.trans (advance_zero rfl)).symm⟩
    simp only [readUint, hfull, pure_eq_ok, Except.ok.injEq, Prod.mk.injEq]
    constructor
    · rintro ⟨rfl, rfl⟩
      exact ⟨[], ⟨rfl, rfl⟩, by omega, rfl⟩
    · rintro ⟨bs, ⟨rfl, rfl⟩, -, rfl⟩
      exact ⟨rfl, rfl⟩
  | 1 =>
    simp only [readUint]
    rw [readByte_eq_ok]
    constructor
    · rintro ⟨hfit, hhead, rfl⟩
      obtain ⟨rest, hin⟩ := exists_input_of_head? hhead
      exact ⟨[v], readFull_eq_ok.mpr ⟨hfit, by simp [hin], by simp [hin], rfl⟩, by omega,
        by simp [beValue]⟩
    · rintro ⟨bs, hread, -, rfl⟩
      obtain ⟨hfit, hlen, rfl, rfl⟩ := readFull_eq_ok.mp hread
      obtain ⟨c, cs, hin⟩ : ∃ c cs, s.input = c :: cs := by
        cases hin : s.input with
        | nil => simp [hin] at hlen
        | cons c cs => exact ⟨c, cs, rfl⟩
      exact ⟨hfit, by simp [hin, beValue], rfl⟩
  | n + 2 =>
    simp only [readUint]
    rw [bind_eq_ok]
    constructor
    · rintro ⟨⟨bs, s₁⟩, hread, h⟩
      dsimp only at h
      split_ifs at h with hzero
      cases h
      exact ⟨bs, hread, fun h => hzero h.2, rfl⟩
    · rintro ⟨bs, hread, hzero, rfl⟩
      refine ⟨(bs, s'), hread, ?_⟩
      dsimp only
      rw [if_neg (fun h => hzero ⟨by omega, h⟩)]
      rfl

/-- The checks `uint` makes after `readUint` are those of `Bytes` and of no leading zero byte:
    from two bytes on, a string without one is at least `256`. -/
theorem uint_checks_iff {bs : List Nat} {size : Nat} (hlen : bs.length = size) :
    (¬ (1 < size ∧ bs.headD 0 = 0) ∧ ¬ (0 < size ∧ beValue bs < 128)) ↔
      (¬ (size = 1 ∧ bs.headD 0 < 128) ∧ ¬ (0 < size ∧ bs.headD 0 = 0)) := by
  subst hlen
  match bs with
  | [] => simp
  | [b] =>
    simp [beValue]
    omega
  | b :: c :: rest =>
    have hge : b * 256 ^ (rest.length + 1) ≤ beValue (b :: c :: rest) := by
      rw [beValue_cons]
      simp
    have hpow : 256 ≤ 256 ^ (rest.length + 1) := Nat.le_self_pow (by omega) 256
    simp only [List.length_cons, List.headD_cons]
    constructor
    · rintro ⟨h1, -⟩
      exact ⟨by omega, by omega⟩
    · rintro ⟨-, h2⟩
      have hb : 256 ≤ b * 256 ^ (rest.length + 1) :=
        le_trans hpow (Nat.le_mul_of_pos_left _ (by omega))
      exact ⟨by omega, by omega⟩

/-- `uint` reads what `Bytes` reads, when it has at most `maxbits / 8` bytes and no leading zero
    byte, as its big-endian value. -/
theorem uint_eq_ok {s s' : Stream} {maxbits v : Nat} (h8 : 8 ≤ maxbits) :
    s.uint maxbits = .ok (v, s') ↔
      ∃ bs, s.bytes = .ok (bs, s') ∧ bs.length ≤ maxbits / 8 ∧
        ¬ (0 < bs.length ∧ bs.headD 0 = 0) ∧ v = beValue bs := by
  unfold uint
  cases hk : s.kind with
  | error e => simp [bytes_of_kind_error hk, bind, Except.bind]
  | ok r =>
    obtain ⟨k, s₁⟩ := r
    have hc := kind_cached hk
    rw [bind_ok, bytes_eq_of_kind hk]
    cases k with
    | byte b =>
      dsimp only
      rw [bytes_byte hc]
      constructor
      · intro h
        split_ifs at h with hb
        cases h
        exact ⟨_, rfl, by simp; omega, by simpa using hb, by simp [beValue]⟩
      · rintro ⟨bs, hbs, -, hlead, rfl⟩
        cases hbs
        rw [if_neg (by simpa using hlead)]
        simp [beValue, pure, Except.pure]
    | string size =>
      dsimp only
      simp only [bytes_string_eq_ok hc]
      by_cases hover : maxbits / 8 < size
      · -- `Bytes` would read more than `maxbits / 8` bytes
        rw [if_pos hover]
        simp only [reduceCtorEq, false_iff, not_exists, not_and]
        rintro bs ⟨⟨-, hle, rfl, -⟩, -⟩ hmax
        simp at hmax
        omega
      · rw [if_neg hover]
        constructor
        · intro h
          split at h
          · cases h
          · cases h
          · next v₀ s₂ hr =>
            split_ifs at h with hsmall
            cases h
            obtain ⟨bs, hread, hlead, rfl⟩ := readUint_eq_ok.mp hr
            obtain ⟨hfit, hle, rfl, rfl⟩ := readFull_eq_ok.mp hread
            have hlen : (s₁.input.take size).length = size := by simp; omega
            have hchk := (uint_checks_iff hlen).mp ⟨hlead, hsmall⟩
            exact ⟨_, ⟨⟨hfit, hle, rfl, rfl⟩, hchk.1⟩, by omega, by rw [hlen]; exact hchk.2, rfl⟩
        · rintro ⟨bs, ⟨⟨hfit, hle, rfl, rfl⟩, hcanon⟩, -, hlead, rfl⟩
          have hlen : (s₁.input.take size).length = size := by simp; omega
          have hchk := (uint_checks_iff hlen).mpr ⟨hcanon, by rw [hlen] at hlead; exact hlead⟩
          rw [readUint_eq_ok.mpr ⟨_, readFull_eq_ok.mpr ⟨hfit, hle, rfl, rfl⟩, hchk.1, rfl⟩]
          dsimp only
          rw [if_neg hchk.2]
          rfl
    | list size => simp [bytes_list hc]

end Stream

/-- `decodeBigInt` reads what `Bytes` reads, when it has no leading zero byte, as its big-endian
    value. -/
theorem decodeBigInt_eq_ok {s s' : Stream} {v : Nat} :
    decodeBigInt s = .ok (v, s') ↔
      ∃ bs, s.bytes = .ok (bs, s') ∧ ¬ (0 < bs.length ∧ bs.headD 0 = 0) ∧ v = beValue bs := by
  unfold decodeBigInt
  rw [bind_eq_ok]
  constructor
  · rintro ⟨⟨bs, s₁⟩, hbytes, h⟩
    dsimp only at h
    split_ifs at h with hlead
    cases h
    exact ⟨bs, hbytes, hlead, rfl⟩
  · rintro ⟨bs, hbytes, hlead, rfl⟩
    refine ⟨(bs, s'), hbytes, ?_⟩
    dsimp only
    rw [if_neg hlead]
    rfl

/-- What `decodeInterface` reads as a string is what `Bytes` reads. -/
theorem decodeInterface_str_eq_ok {s s' : Stream} {bs : List Nat} (fuel : Nat) :
    decodeInterface (fuel + 1) s = .ok (.str bs, s') ↔ s.bytes = .ok (bs, s') := by
  unfold decodeInterface
  cases hk : s.kind with
  | error e => simp [Stream.bytes_of_kind_error hk, bind, Except.bind]
  | ok r =>
    obtain ⟨k, s₁⟩ := r
    rw [bind_ok, Stream.bytes_eq_of_kind hk]
    cases k with
    | list size =>
      -- a list is read as a list, and `Bytes` refuses it
      rw [Stream.bytes_list (Stream.kind_cached hk)]
      simp only [reduceCtorEq, iff_false]
      rw [bind_eq_ok]
      rintro ⟨_, -, h⟩
      cases h
    | byte _ | string _ =>
      dsimp only
      rw [bind_eq_ok]
      constructor
      · rintro ⟨_, h, heq⟩
        cases heq
        exact h
      · intro h
        exact ⟨_, h, rfl⟩

/-! ## `DecodeBytes` into an integer -/

/-- `DecodeBytes` with a reader that succeeds where another does, with a value related to the
    other's, on the same input. -/
theorem decodeBytesWith_eq_ok_iff {α β : Type} {dec : Stream → Except StreamErr (α × Stream)}
    {dec' : Stream → Except StreamErr (β × Stream)} {P : β → α → Prop}
    (hdec : ∀ s s' v, dec s = .ok (v, s') ↔ ∃ u, dec' s = .ok (u, s') ∧ P u v)
    (b : List Nat) (v : α) :
    decodeBytesWith dec b = .ok v ↔ ∃ u, decodeBytesWith dec' b = .ok u ∧ P u v := by
  unfold decodeBytesWith
  rw [bind_eq_ok]
  constructor
  · rintro ⟨⟨v₁, s⟩, hread, h⟩
    obtain ⟨u, hread', hP⟩ := (hdec _ _ _).mp hread
    dsimp only at h
    split_ifs at h with hleft
    cases h
    exact ⟨u, by rw [hread', bind_ok]; dsimp only; rw [if_neg hleft]; rfl, hP⟩
  · rintro ⟨u, h, hP⟩
    rw [bind_eq_ok] at h
    obtain ⟨⟨u₁, s⟩, hread', h⟩ := h
    dsimp only at h
    split_ifs at h with hleft
    cases h
    exact ⟨(v, s), (hdec _ _ _).mpr ⟨u, hread', hP⟩, by dsimp only; rw [if_neg hleft]; rfl⟩

/-- `DecodeBytes` into a byte slice reads what `DecodeBytes` into an `interface{}` reads as a
    string. -/
theorem decodeBytesWith_bytes_eq_ok {b bs : List Nat} :
    decodeBytesWith Stream.bytes b = .ok bs ↔ decodeBytes b = .ok (.str bs) := by
  -- `DecodeBytes` into an `interface{}` runs `decodeInterface` with fuel for the whole input
  have h := @decodeBytesWith_eq_ok_iff (List Nat) Item Stream.bytes (decodeInterface (b.length + 1))
    (fun t bs => t = .str bs)
    (fun _ _ _ => ⟨fun h => ⟨_, (decodeInterface_str_eq_ok _).mpr h, rfl⟩,
      fun ⟨_, h, heq⟩ => (decodeInterface_str_eq_ok _).mp (heq ▸ h)⟩) b bs
  rw [h]
  exact ⟨fun ⟨_, h, heq⟩ => heq ▸ h, fun h => ⟨_, h, rfl⟩⟩

theorem mem_encodeString {bs : List Nat} {x : Nat} (hx : x ∈ bs) : x ∈ encodeString bs := by
  unfold encodeString
  split_ifs
  · exact hx
  · exact List.mem_append_right _ hx

/-- A byte slice that `DecodeBytes` reads is the encoding of what it reads. -/
theorem decodeBytesWith_bytes_canonical {b bs : List Nat} (hb : ∀ x ∈ b, x < 256)
    (h : decodeBytesWith Stream.bytes b = .ok bs) : b = encodeString bs :=
  decodeBytes_canonical hb (decodeBytesWith_bytes_eq_ok.mp h)

/-- `DecodeBytes` into a byte slice reads back the encoding of bytes that fits a slice. -/
theorem decodeBytesWith_bytes_encodeString {bs : List Nat} (hbs : ∀ x ∈ bs, x < 256)
    (hlen : (encodeString bs).length < 2 ^ 64) :
    decodeBytesWith Stream.bytes (encodeString bs) = .ok bs :=
  decodeBytesWith_bytes_eq_ok.mpr
    (@decodeBytes_encode (.str bs) (by simpa [Item.isBytes] using hbs) hlen)

/-- A byte string without a leading zero byte is the shortest form of its value. -/
theorem shortest_iff {bs : List Nat} {n : Nat} (hb : ∀ x ∈ bs, x < 256) :
    (¬ (0 < bs.length ∧ bs.headD 0 = 0) ∧ n = beValue bs) ↔ bs = natBytes n := by
  constructor
  · rintro ⟨hlead, rfl⟩
    cases bs with
    | nil => rfl
    | cons c cs => exact (natBytes_beValue hb (by simpa using hlead)).symm
  · rintro rfl
    refine ⟨?_, (beValue_natBytes n).symm⟩
    rintro ⟨hpos, hzero⟩
    -- only zero has the empty shortest form
    rcases Nat.eq_zero_or_pos n with rfl | hn
    · simp [natBytes, byteLength, byteLengthAux] at hpos
    · exact natBytes_headD_ne_zero hn hzero

example : (Encbuf.empty.writeBigInt (2 ^ 64 + 0x0102)).str = [0x89, 1, 0, 0, 0, 0, 0, 0, 1, 2] := by
  decide

/-- `DecodeBytes` into a `*big.Int` reads back what `writeBigInt` writes, when it fits a slice. -/
theorem decodeBytesWith_decodeBigInt_writeBigInt (n : Nat)
    (hlen : (Encbuf.empty.writeBigInt n).str.length < 2 ^ 64) :
    decodeBytesWith decodeBigInt (Encbuf.empty.writeBigInt n).str = .ok n := by
  have hstr : (Encbuf.empty.writeBigInt n).str = encodeString (natBytes n) := by
    rw [Encbuf.writeBigInt_eq]
    rfl
  rw [hstr] at hlen ⊢
  exact (decodeBytesWith_eq_ok_iff (fun _ _ _ => decodeBigInt_eq_ok) _ n).mpr
    ⟨natBytes n, decodeBytesWith_bytes_encodeString (fun _ hx => natBytes_lt hx) hlen,
      (shortest_iff fun _ hx => natBytes_lt hx).mpr rfl⟩

/-- `DecodeBytes` into a `*big.Int` accepts only what `writeBigInt` writes for the number it
    returns. -/
theorem decodeBytesWith_decodeBigInt_canonical {b : List Nat} {n : Nat} (hb : ∀ x ∈ b, x < 256)
    (h : decodeBytesWith decodeBigInt b = .ok n) : b = (Encbuf.empty.writeBigInt n).str := by
  obtain ⟨bs, hbytes, hshort⟩ :=
    (decodeBytesWith_eq_ok_iff (fun _ _ _ => decodeBigInt_eq_ok) b n).mp h
  have hcanon := decodeBytesWith_bytes_canonical hb hbytes
  have hbs : ∀ x ∈ bs, x < 256 := fun x hx => hb x (hcanon ▸ mem_encodeString hx)
  rw [Encbuf.writeBigInt_eq, hcanon, (shortest_iff hbs).mp hshort]
  rfl

example : decodeBytesWith decodeBigInt [0x82, 0x00, 0xFF] = .error .canonInt := by rfl

theorem pow_uint_le {maxbits : Nat} (h64 : maxbits ≤ 64) : 256 ^ (maxbits / 8) ≤ 2 ^ 64 :=
  calc 256 ^ (maxbits / 8) ≤ 256 ^ 8 := Nat.pow_le_pow_right (by decide) (by omega)
    _ = 2 ^ 64 := by decide

/-- `DecodeBytes` into an unsigned integer of `maxbits` bits reads back what `encodeUint` writes
    for a number of `maxbits / 8` bytes. -/
theorem decodeBytesWith_uint_encodeUint {maxbits x : Nat} (h8 : 8 ≤ maxbits) (h64 : maxbits ≤ 64)
    (hx : x < 256 ^ (maxbits / 8)) :
    decodeBytesWith (Stream.uint · maxbits) (Encbuf.empty.encodeUint x).str = .ok x := by
  have hx64 : x < 2 ^ 64 := lt_of_lt_of_le hx (pow_uint_le h64)
  have hstr : (Encbuf.empty.encodeUint x).str = encodeString (natBytes x) := by
    rw [Encbuf.encodeUint_eq _ hx64]
    rfl
  -- the encoding has at most nine bytes
  have hlen : (encodeString (natBytes x)).length < 2 ^ 64 := by
    have hle := encodeString_length_le (natBytes x)
    have hbytes := byteLength_le_eight hx64
    have hsize := @byteLength_le_eight (byteLength x) (by omega)
    rw [natBytes_length] at hle
    omega
  rw [hstr]
  exact (decodeBytesWith_eq_ok_iff (fun _ _ _ => Stream.uint_eq_ok h8) _ x).mpr
    ⟨natBytes x, decodeBytesWith_bytes_encodeString (fun _ hy => natBytes_lt hy) hlen,
      by rw [natBytes_length]; exact lt_pow_iff_byteLength_le.mp hx,
      (shortest_iff fun _ hy => natBytes_lt hy).mpr rfl⟩

/-- `DecodeBytes` into an unsigned integer of `maxbits` bits accepts only what `encodeUint` writes
    for the number it returns, and that number fits `maxbits / 8` bytes. -/
theorem decodeBytesWith_uint_canonical {maxbits x : Nat} {b : List Nat} (h8 : 8 ≤ maxbits)
    (h64 : maxbits ≤ 64) (hb : ∀ y ∈ b, y < 256)
    (h : decodeBytesWith (Stream.uint · maxbits) b = .ok x) :
    x < 256 ^ (maxbits / 8) ∧ b = (Encbuf.empty.encodeUint x).str := by
  obtain ⟨bs, hbytes, hlen, hshort⟩ :=
    (decodeBytesWith_eq_ok_iff (fun _ _ _ => Stream.uint_eq_ok h8) b x).mp h
  have hcanon := decodeBytesWith_bytes_canonical hb hbytes
  have hbs : ∀ y ∈ bs, y < 256 := fun y hy => hb y (hcanon ▸ mem_encodeString hy)
  have hnat := (shortest_iff hbs).mp hshort
  have hx : x < 256 ^ (maxbits / 8) := by
    rw [lt_pow_iff_byteLength_le, ← natBytes_length, ← hnat]
    exact hlen
  refine ⟨hx, ?_⟩
  rw [Encbuf.encodeUint_eq _ (lt_of_lt_of_le hx (pow_uint_le h64)), hcanon, hnat]
  rfl

/-- A zero byte on its own, a single byte below `0x80` under a header, and three bytes for sixteen
    bits are refused. -/
example : decodeBytesWith (Stream.uint · 16) [0x00] = .error .canonInt := by rfl
example : decodeBytesWith (Stream.uint · 16) [0x81, 0x05] = .error .canonSize := by rfl
example : decodeBytesWith (Stream.uint · 16) [0x83, 0x01, 0x00, 0x00] = .error .uintOverflow := by
  rfl

theorem rlp_integer_codec :
    (∀ n : Nat, (Encbuf.empty.writeBigInt n).str.length < 2 ^ 64 →
      decodeBytesWith decodeBigInt (Encbuf.empty.writeBigInt n).str = .ok n) ∧
    (∀ (b : List Nat) (n : Nat), (∀ x ∈ b, x < 256) → decodeBytesWith decodeBigInt b = .ok n →
      b = (Encbuf.empty.writeBigInt n).str) ∧
    (∀ w ∈ [8, 16, 32, 64], ∀ x < 2 ^ w,
      decodeBytesWith (Stream.uint · w) (Encbuf.empty.encodeUint x).str = .ok x) ∧
    (∀ w ∈ [8, 16, 32, 64], ∀ (b : List Nat) (x : Nat), (∀ y ∈ b, y < 256) →
      decodeBytesWith (Stream.uint · w) b = .ok x →
        x < 2 ^ w ∧ b = (Encbuf.empty.encodeUint x).str) := by
  -- the widths of Go's unsigned integers are whole bytes, up to eight
  have hwidth : ∀ w ∈ [8, 16, 32, 64], 8 ≤ w ∧ w ≤ 64 ∧ 256 ^ (w / 8) = 2 ^ w := by decide
  refine ⟨decodeBytesWith_decodeBigInt_writeBigInt,
    fun _ _ hb h => decodeBytesWith_decodeBigInt_canonical hb h, ?_, ?_⟩
  · intro w hw x hx
    obtain ⟨h8, h64, hpow⟩ := hwidth w hw
    rw [← hpow] at hx
    exact decodeBytesWith_uint_encodeUint h8 h64 hx
  · intro w hw b x hb h
    obtain ⟨h8, h64, hpow⟩ := hwidth w hw
    rw [← hpow]
    exact decodeBytesWith_uint_canonical h8 h64 hb h

theorem rlp_integer_codec_wide :
    decodeBytesWith decodeBigInt (Encbuf.empty.writeBigInt (2 ^ 64)).str = .ok (2 ^ 64) ∧
      [0x89, 1, 0, 0, 0, 0, 0, 0, 0, 0] = (Encbuf.empty.writeBigInt (2 ^ 64)).str ∧
      decodeBytesWith (Stream.uint · 16) (Encbuf.empty.encodeUint 300).str = .ok 300 ∧
      (300 < 2 ^ 16 ∧ [0x82, 0x01, 0x2C] = (Encbuf.empty.encodeUint 300).str) :=
  ⟨rlp_integer_codec.1 _ (by decide),
    rlp_integer_codec.2.1 [0x89, 1, 0, 0, 0, 0, 0, 0, 0, 0] _ (by decide) (by rfl),
    rlp_integer_codec.2.2.1 16 (by decide) 300 (by decide),
    rlp_integer_codec.2.2.2 16 (by decide) [0x82, 0x01, 0x2C] 300 (by decide) (by rfl)⟩

end QuorumHotstuff.Lib.Rlp
