import QuorumHotstuff.Lib.Rlp.Encbuf
import QuorumHotstuff.Lib.Except

/-!
# The decoding stream

`Stream` of `rlp/decode.go` as `DecodeBytes` sets it up: it reads a byte slice, with the input
limit at the slice's length.  `Kind` reads the header of the next value and caches it until a read
rearms it.  Inside a list it answers `EOL` at the list's end.  It refuses a value larger than what
is left of the enclosing list (`ErrElemTooLarge`) or of the input (`ErrValueTooLarge`).  `List`
pushes a position for the new list; `ListEnd` pops it at the list's end and moves the enclosing
list past it.  `willRead` counts every byte read against the innermost list and the input limit.
A tree of byte strings and lists is read by `decodeInterface`, the decoder of `interface{}`, with
`decodeListSlice` and `decodeSliceElems` for a list.

An error ends the decoding, so the error that `Kind` keeps for later calls is not modelled.  The
decoders' recursion is bounded by `fuel`; running out (`outOfFuel`) is not a Go error, and
`DecodeBytes` gives more fuel than any input uses.

The reader reads back what `Lib.Rlp` encodes (`decodeInterface_encode`), and what it reads of
bytes is the encoding of the tree it returns (`decodeInterface_canonical`).
-/

namespace QuorumHotstuff.Lib.Rlp

open QuorumHotstuff.Lib

/-- `listpos`: the bytes read of a list, and its size. -/
structure ListPos where
  pos : Nat
  size : Nat
deriving DecidableEq, Repr

/-- The errors the reader of a tree can meet. -/
inductive StreamErr where
  | eol
  | elemTooLarge
  | valueTooLarge
  | canonSize
  | canonInt
  | uintOverflow
  | unexpectedEOF
  | expectedString
  | expectedList
  | notAtEOL
  | notInList
  | moreThanOneValue
  | outOfFuel
deriving DecidableEq, Repr

/-- The size `Kind` returns: zero for a single byte, else the payload's. -/
def Kind.size : Kind → Nat
  | .byte _ => 0
  | .string size => size
  | .list size => size

/-- `Stream`: the unread input, the input limit left, the positions in the open lists, innermost
    first, and the kind `Kind` has read and caches (`kind`, `size` and `byteval`), `none` once a
    read rearms it. -/
structure Stream where
  input : List Nat
  remaining : Nat
  stack : List ListPos
  cached : Option Kind
deriving DecidableEq, Repr

namespace Stream

/-- The stream `DecodeBytes` resets on its input. -/
def reset (b : List Nat) : Stream := ⟨b, b.length, [], none⟩

/-- `willRead`: `n` more bytes of the innermost list and of the input limit. -/
def willRead (s : Stream) (n : Nat) : Except StreamErr Stream := do
  let s ← match s.stack with
    | tos :: rest =>
      if tos.size - tos.pos < n then .error .elemTooLarge
      else pure { s with stack := { tos with pos := tos.pos + n } :: rest }
    | [] => pure s
  if s.remaining < n then .error .valueTooLarge
  else pure { s with remaining := s.remaining - n, cached := none }

/-- `readByte`. -/
def readByte (s : Stream) : Except StreamErr (Nat × Stream) := do
  let s ← s.willRead 1
  match s.input with
  | [] => .error .unexpectedEOF
  | b :: bs => pure (b, { s with input := bs })

/-- `readFull` of `n` bytes. -/
def readFull (s : Stream) (n : Nat) : Except StreamErr (List Nat × Stream) := do
  let s ← s.willRead n
  if s.input.length < n then .error .unexpectedEOF
  else pure (s.input.take n, { s with input := s.input.drop n })

/-- `readUint` of a number of `size` bytes; from two bytes on, a leading zero is refused. -/
def readUint (s : Stream) (size : Nat) : Except StreamErr (Nat × Stream) :=
  match size with
  | 0 => pure (0, { s with cached := none })
  | 1 => s.readByte
  | n + 2 => do
    let (b, s) ← s.readFull (n + 2)
    if b.headD 0 = 0 then .error .canonSize else pure (beValue b, s)

/-- `readKind`: a byte below `0x80` is its own value; a long size below 56 is refused. -/
def readKind (s : Stream) : Except StreamErr (Kind × Stream) := do
  let (b, s) ← s.readByte
  if b < 0x80 then pure (.byte b, s)
  else if b < 0xB8 then pure (.string (b - 0x80), s)
  else if b < 0xC0 then do
    let (size, s) ← s.readUint (b - 0xB7)
    if size < 56 then .error .canonSize else pure (.string size, s)
  else if b < 0xF8 then pure (.list (b - 0xC0), s)
  else do
    let (size, s) ← s.readUint (b - 0xF7)
    if size < 56 then .error .canonSize else pure (.list size, s)

/-- `Kind`: the cached kind; else `EOL` at the end of the innermost list; else the next header,
    refused when its value does not fit what is left of the list or, at the top, of the input. -/
def kind (s : Stream) : Except StreamErr (Kind × Stream) :=
  match s.cached with
  | some k => pure (k, s)
  | none =>
    if s.stack.head?.any (fun tos => tos.pos = tos.size) then .error .eol
    else do
      let (k, s) ← s.readKind
      match s.stack with
      | [] => if s.remaining < k.size then .error .valueTooLarge else pure (k, { s with cached := some k })
      | tos :: _ =>
        if tos.size - tos.pos < k.size then .error .elemTooLarge
        else pure (k, { s with cached := some k })

/-- `Bytes`: a single byte, or a string other than one byte below `0x80`. -/
def bytes (s : Stream) : Except StreamErr (List Nat × Stream) := do
  let (k, s) ← s.kind
  match k with
  | .byte b => pure ([b], { s with cached := none })
  | .string size => do
    let (b, s) ← s.readFull size
    if size = 1 ∧ b.headD 0 < 128 then .error .canonSize else pure (b, s)
  | .list _ => .error .expectedString

/-- `List`: a position at the start of the new list. -/
def list (s : Stream) : Except StreamErr (Nat × Stream) := do
  let (k, s) ← s.kind
  match k with
  | .list size => pure (size, { s with stack := ⟨0, size⟩ :: s.stack, cached := none })
  | _ => .error .expectedList

/-- `ListEnd`: at the list's end, the enclosing list moves past it. -/
def listEnd (s : Stream) : Except StreamErr Stream :=
  match s.stack with
  | [] => .error .notInList
  | tos :: rest =>
    if tos.pos ≠ tos.size then .error .notAtEOL
    else
      let rest := match rest with
        | [] => []
        | up :: more => { up with pos := up.pos + tos.size } :: more
      pure { s with stack := rest, cached := none }

end Stream

/-- `decodeSliceElems`: items until `EOL`; `fuel` bounds their number. -/
def decodeSliceElems (elemdec : Stream → Except StreamErr (Item × Stream)) :
    Nat → Stream → Except StreamErr (List Item × Stream)
  | 0, _ => .error .outOfFuel
  | fuel + 1, s =>
    match elemdec s with
    | .error .eol => pure ([], s)
    | .error e => .error e
    | .ok (x, s) => do
      let (xs, s) ← decodeSliceElems elemdec fuel s
      pure (x :: xs, s)

/-- `decodeListSlice`: the items of a list, then `ListEnd`. -/
def decodeListSlice (elemdec : Stream → Except StreamErr (Item × Stream)) (fuel : Nat)
    (s : Stream) : Except StreamErr (List Item × Stream) := do
  let (size, s) ← s.list
  if size = 0 then
    let s ← s.listEnd
    pure ([], s)
  else
    let (xs, s) ← decodeSliceElems elemdec fuel s
    let s ← s.listEnd
    pure (xs, s)

/-- `decodeInterface`: a list of trees or a byte string; `fuel` bounds the nesting. -/
def decodeInterface : Nat → Stream → Except StreamErr (Item × Stream)
  | 0, _ => .error .outOfFuel
  | fuel + 1, s => do
    let (k, s) ← s.kind
    match k with
    | .list _ => do
      let (xs, s) ← decodeListSlice (decodeInterface fuel) fuel s
      pure (.list xs, s)
    | _ => do
      let (b, s) ← s.bytes
      pure (.str b, s)

/-! ## Reading bytes -/

namespace Stream

/-- The positions after `n` more bytes of the innermost list. -/
def bump : List ListPos → Nat → List ListPos
  | [], _ => []
  | tos :: rest, n => { tos with pos := tos.pos + n } :: rest

/-- What `willRead` leaves: `n` more bytes counted against the innermost list and the input
    limit, and `Kind` rearmed. -/
def count (s : Stream) (n : Nat) : Stream :=
  { s with remaining := s.remaining - n, stack := bump s.stack n, cached := none }

/-- The stream after `n` bytes are read. -/
def advance (s : Stream) (n : Nat) : Stream :=
  { s.count n with input := s.input.drop n }

/-- `n` more bytes fit the input limit and the innermost list. -/
def Fits (s : Stream) (n : Nat) : Prop :=
  n ≤ s.remaining ∧ ∀ tos ∈ s.stack.head?, n ≤ tos.size - tos.pos

@[simp] theorem bump_zero (l : List ListPos) : bump l 0 = l := by
  cases l <;> rfl

theorem bump_bump (l : List ListPos) (m n : Nat) : bump (bump l m) n = bump l (m + n) := by
  cases l with
  | nil => rfl
  | cons tos rest => simp [bump, Nat.add_assoc]

theorem advance_advance (s : Stream) (m n : Nat) : (s.advance m).advance n = s.advance (m + n) := by
  simp [advance, count, bump_bump, List.drop_drop, Nat.sub_sub]

theorem advance_zero {s : Stream} (h : s.cached = none) : s.advance 0 = s := by
  cases s
  simp_all [advance, count]

@[simp] theorem advance_input (s : Stream) (n : Nat) : (s.advance n).input = s.input.drop n := rfl

@[simp] theorem advance_cached (s : Stream) (n : Nat) : (s.advance n).cached = none := rfl

@[simp] theorem advance_remaining (s : Stream) (n : Nat) :
    (s.advance n).remaining = s.remaining - n := rfl

@[simp] theorem advance_stack (s : Stream) (n : Nat) : (s.advance n).stack = bump s.stack n := rfl

theorem Fits.le {s : Stream} {m n : Nat} (h : s.Fits n) (hmn : m ≤ n) : s.Fits m :=
  ⟨le_trans hmn h.1, fun tos htos => le_trans hmn (h.2 tos htos)⟩

theorem Fits.advance {s : Stream} {m n : Nat} (h : s.Fits (m + n)) : (s.advance m).Fits n := by
  obtain ⟨input, remaining, stack, cached⟩ := s
  obtain ⟨hrem, htop⟩ := h
  cases stack with
  | nil => simp_all [Fits, Stream.advance, count, bump]; omega
  | cons tos rest =>
    have := htop tos rfl
    simp_all [Fits, Stream.advance, count, bump]
    omega

theorem willRead_of_fits {s : Stream} {n : Nat} (h : s.Fits n) : s.willRead n = .ok (s.count n) := by
  obtain ⟨input, remaining, stack, cached⟩ := s
  obtain ⟨hrem, htop⟩ := h
  cases stack with
  | nil =>
    simp only [willRead, count, bump, bind, Except.bind, pure, Except.pure]
    rw [if_neg (by simp only at hrem; omega)]
  | cons tos rest =>
    have := htop tos rfl
    simp only [willRead, count, bump]
    rw [if_neg (by omega)]
    simp only [bind, Except.bind, pure, Except.pure]
    rw [if_neg (by simp only at hrem ⊢; omega)]

theorem fits_of_willRead {s s' : Stream} {n : Nat} (h : s.willRead n = .ok s') :
    s.Fits n ∧ s' = s.count n := by
  obtain ⟨input, remaining, stack, cached⟩ := s
  cases stack with
  | nil =>
    simp only [willRead, bind, Except.bind, pure, Except.pure] at h
    split_ifs at h with hrem
    cases h
    exact ⟨⟨by simp only; omega, by simp⟩, rfl⟩
  | cons tos rest =>
    simp only [willRead, bind, Except.bind, pure, Except.pure] at h
    split_ifs at h with htop hrem
    cases h
    exact ⟨⟨by simp only; omega, by simp; omega⟩, rfl⟩

@[simp] theorem count_input (s : Stream) (n : Nat) : (s.count n).input = s.input := rfl

theorem readByte_eq_ok {s s' : Stream} {b : Nat} :
    s.readByte = .ok (b, s') ↔ s.Fits 1 ∧ s.input.head? = some b ∧ s' = s.advance 1 := by
  unfold readByte
  rw [bind_eq_ok]
  constructor
  · rintro ⟨s₁, hw, hread⟩
    obtain ⟨hfit, rfl⟩ := fits_of_willRead hw
    cases hin : s.input with
    | nil => simp [hin] at hread
    | cons c cs =>
      simp only [count_input, hin, pure_eq_ok, Prod.mk.injEq] at hread
      obtain ⟨rfl, rfl⟩ := hread
      exact ⟨hfit, rfl, by simp [advance, hin]⟩
  · rintro ⟨hfit, hhead, rfl⟩
    refine ⟨_, willRead_of_fits hfit, ?_⟩
    cases hin : s.input with
    | nil => simp [hin] at hhead
    | cons c cs =>
      simp only [hin, List.head?_cons, Option.some.injEq] at hhead
      subst hhead
      simp [advance, hin, pure_eq_ok]

theorem readFull_eq_ok {s s' : Stream} {n : Nat} {bs : List Nat} :
    s.readFull n = .ok (bs, s') ↔
      s.Fits n ∧ n ≤ s.input.length ∧ bs = s.input.take n ∧ s' = s.advance n := by
  unfold readFull
  rw [bind_eq_ok]
  constructor
  · rintro ⟨s₁, hw, hread⟩
    obtain ⟨hfit, rfl⟩ := fits_of_willRead hw
    split_ifs at hread with hlen
    cases hread
    exact ⟨hfit, Nat.le_of_not_lt hlen, rfl, rfl⟩
  · rintro ⟨hfit, hlen, rfl, rfl⟩
    refine ⟨_, willRead_of_fits hfit, ?_⟩
    split_ifs with hshort
    · exact absurd hlen (Nat.not_le_of_lt hshort)
    · rfl

theorem Fits.add {s : Stream} {m n : Nat} (hm : s.Fits m) (hn : (s.advance m).Fits n) :
    s.Fits (m + n) := by
  obtain ⟨input, remaining, stack, cached⟩ := s
  obtain ⟨hrem, htop⟩ := hm
  obtain ⟨hrem', htop'⟩ := hn
  cases stack with
  | nil => simp_all [Fits, Stream.advance, count, bump]; omega
  | cons tos rest =>
    have h1 := htop tos rfl
    have h2 := htop' _ rfl
    simp_all [Fits, Stream.advance, count, bump]
    omega

theorem headD_take {l : List Nat} {n : Nat} (hn : 0 < n) : (l.take n).headD 0 = l.headD 0 := by
  cases l with
  | nil => simp
  | cons c cs =>
    obtain ⟨m, rfl⟩ : ∃ m, n = m + 1 := ⟨n - 1, by omega⟩
    rfl

/-- A long size that `readUint` reads is the one `Lib.Rlp` reads. -/
theorem readLongSize_of_readUint {s s' : Stream} {n v : Nat} (hn : 0 < n) (hv : 56 ≤ v)
    (h : s.readUint n = .ok (v, s')) :
    readLongSize n s.input = some (v, s'.input) ∧ s.Fits n ∧ s' = s.advance n := by
  match n, hn with
  | 1, _ =>
    obtain ⟨hfit, hhead, rfl⟩ := readByte_eq_ok.mp h
    cases hin : s.input with
    | nil => simp [hin] at hhead
    | cons c cs =>
      simp only [hin, List.head?_cons, Option.some.injEq] at hhead
      subst hhead
      refine ⟨?_, hfit, rfl⟩
      unfold readLongSize readSize
      rw [if_neg (by simp; omega)]
      dsimp only
      rw [if_neg (by simp [beValue]; omega)]
      simp [beValue, hin]
  | m + 2, _ =>
    simp only [readUint] at h
    rw [bind_eq_ok] at h
    obtain ⟨⟨bs, s₁⟩, hread, hcheck⟩ := h
    obtain ⟨hfit, hlen, rfl, rfl⟩ := readFull_eq_ok.mp hread
    split_ifs at hcheck with hzero
    cases hcheck
    dsimp only at hv
    rw [headD_take (by omega)] at hzero
    refine ⟨?_, hfit, rfl⟩
    unfold readLongSize readSize
    rw [if_neg (not_or.mpr ⟨by omega, hzero⟩)]
    dsimp only
    rw [if_neg (by omega)]
    rfl

/-- What `Lib.Rlp` reads as a long size of `n` bytes, `readUint` reads when the bytes fit. -/
theorem readUint_of_readLongSize {s : Stream} {n v : Nat} {rest : List Nat} (hn : 0 < n)
    (h : readLongSize n s.input = some (v, rest)) (hfit : s.Fits n) :
    s.readUint n = .ok (v, s.advance n) := by
  unfold readLongSize at h
  cases hs : readSize n s.input with
  | none => simp [hs] at h
  | some p =>
    obtain ⟨size, r⟩ := p
    simp only [hs] at h
    split_ifs at h with hsmall
    cases h
    unfold readSize at hs
    split_ifs at hs with hbad
    cases hs
    simp only [not_or] at hbad
    match n, hn with
    | 1, _ =>
      cases hin : s.input with
      | nil => simp [hin] at hbad
      | cons c cs =>
        have hc : beValue ((c :: cs).take 1) = c := by simp [beValue]
        rw [hc]
        exact readByte_eq_ok.mpr ⟨hfit, by simp [hin], rfl⟩
    | m + 2, _ =>
      simp only [readUint]
      rw [readFull_eq_ok.mpr ⟨hfit, by omega, rfl, rfl⟩, bind_ok]
      rw [if_neg (by rw [headD_take (by omega)]; exact hbad.2)]
      rfl

theorem header_length_of_lt {offset size : Nat} (h : size < 56) : (header offset size).length = 1 := by
  simp [header, h]

theorem header_length_of_le {offset size : Nat} (h : 56 ≤ size) :
    (header offset size).length = 1 + byteLength size := by
  simp [header, show ¬ size < 56 by omega, Nat.add_comm]

theorem exists_input_of_head? {s : Stream} {b : Nat} (h : s.input.head? = some b) :
    ∃ bs, s.input = b :: bs := by
  cases hin : s.input with
  | nil => simp [hin] at h
  | cons c cs =>
    simp only [hin, List.head?_cons, Option.some.injEq] at h
    exact ⟨cs, by rw [h]⟩

/-- The long form of a header: after its first byte, `L` bytes of size, the ones `Lib.Rlp`
    reads. -/
theorem readLong_of_readUint {s s₂ : Stream} {b v L : Nat} {bs : List Nat}
    (hin : s.input = b :: bs) (hbs : ∀ x ∈ bs, x < 256) (hfit : s.Fits 1) (hL : 0 < L)
    (hv : 56 ≤ v) (hu : (s.advance 1).readUint L = .ok (v, s₂)) :
    readLongSize L bs = some (v, s₂.input) ∧ byteLength v = L ∧ s.Fits (1 + L) ∧
      s₂ = s.advance (1 + L) := by
  obtain ⟨hlong, hfit', rfl⟩ := readLongSize_of_readUint hL hv hu
  have hrest : (s.advance 1).input = bs := by simp [hin]
  rw [hrest] at hlong
  exact ⟨hlong, (readLongSize_canonical hL hbs hlong).2.2, hfit.add hfit', advance_advance s 1 L⟩

/-- The header `readKind` reads is the one `Lib.Rlp` reads, and the stream moves past it. -/
theorem readKind_sound {s s' : Stream} {k : Kind} (hb : ∀ x ∈ s.input, x < 256)
    (h : s.readKind = .ok (k, s')) :
    Rlp.readKind s.input = some (k, s'.input) ∧ s.Fits k.headerBytes.length ∧
      s' = s.advance k.headerBytes.length := by
  unfold readKind at h
  rw [bind_eq_ok] at h
  obtain ⟨⟨b, s₁⟩, hbyte, h⟩ := h
  obtain ⟨hfit, hhead, rfl⟩ := readByte_eq_ok.mp hbyte
  obtain ⟨bs, hin⟩ := exists_input_of_head? hhead
  dsimp only at h
  have hbs : ∀ x ∈ bs, x < 256 := fun x hx => hb x (by simp [hin, hx])
  have hb256 : b < 256 := hb b (by simp [hin])
  -- the stream's branches are those of Lib.Rlp's readKind
  by_cases h1 : b < 0x80
  · rw [if_pos h1] at h
    cases h
    exact ⟨by simp [Rlp.readKind, hin, h1], hfit, rfl⟩
  by_cases h2 : b < 0xB8
  · rw [if_neg h1, if_pos h2] at h
    cases h
    have hl : (Kind.string (b - 0x80)).headerBytes.length = 1 := header_length_of_lt (by omega)
    rw [hl]
    exact ⟨by simp [Rlp.readKind, hin, h1, h2], hfit, rfl⟩
  by_cases h3 : b < 0xC0
  · rw [if_neg h1, if_neg h2, if_pos h3, bind_eq_ok] at h
    obtain ⟨⟨v, s₂⟩, hu, h⟩ := h
    dsimp only at h
    split_ifs at h with hv
    cases h
    obtain ⟨hlong, hlen, hfit', rfl⟩ := readLong_of_readUint hin hbs hfit (by omega) (by omega) hu
    have hl : (Kind.string v).headerBytes.length = 1 + (b - 0xB7) := by
      rw [Kind.headerBytes, header_length_of_le (by omega), hlen]
    rw [hl]
    exact ⟨by simp [Rlp.readKind, hin, h1, h2, h3, hlong], hfit', rfl⟩
  by_cases h4 : b < 0xF8
  · rw [if_neg h1, if_neg h2, if_neg h3, if_pos h4] at h
    cases h
    have hl : (Kind.list (b - 0xC0)).headerBytes.length = 1 := header_length_of_lt (by omega)
    rw [hl]
    exact ⟨by simp [Rlp.readKind, hin, h1, h2, h3, h4], hfit, rfl⟩
  · rw [if_neg h1, if_neg h2, if_neg h3, if_neg h4, bind_eq_ok] at h
    obtain ⟨⟨v, s₂⟩, hu, h⟩ := h
    dsimp only at h
    split_ifs at h with hv
    cases h
    obtain ⟨hlong, hlen, hfit', rfl⟩ := readLong_of_readUint hin hbs hfit (by omega) (by omega) hu
    have hl : (Kind.list v).headerBytes.length = 1 + (b - 0xF7) := by
      rw [Kind.headerBytes, header_length_of_le (by omega), hlen]
    rw [hl]
    exact ⟨by simp [Rlp.readKind, hin, h1, h2, h3, h4, hb256, hlong], hfit', rfl⟩

theorem headerBytes_length_pos (k : Kind) : 0 < k.headerBytes.length := by
  cases k <;> simp [Kind.headerBytes, List.length_pos_iff, header_ne_nil]

/-- A long size that `Lib.Rlp` reads after a header's first byte, `readUint` reads when the
    header fits, and it passes the check against a size that has a short header. -/
theorem readUint_of_long {s : Stream} {offset b v L : Nat} {bs r : List Nat}
    (hin : s.input = b :: bs) (hbs : ∀ x ∈ bs, x < 256) (hL : 0 < L)
    (hlong : readLongSize L bs = some (v, r)) (hfit : s.Fits (header offset v).length) :
    (s.advance 1).readUint L = .ok (v, s.advance (header offset v).length) ∧ ¬ v < 56 := by
  obtain ⟨hv, -, hlen⟩ := readLongSize_canonical hL hbs hlong
  have hlong' : readLongSize L (s.advance 1).input = some (v, r) := by simpa [hin] using hlong
  rw [header_length_of_le hv, hlen] at hfit ⊢
  rw [readUint_of_readLongSize hL hlong' hfit.advance, advance_advance]
  exact ⟨rfl, by omega⟩

/-- What `Lib.Rlp` reads as a header, `readKind` reads when its bytes fit. -/
theorem readKind_complete {s : Stream} {k : Kind} {rest : List Nat} (hb : ∀ x ∈ s.input, x < 256)
    (h : Rlp.readKind s.input = some (k, rest)) (hfit : s.Fits k.headerBytes.length) :
    s.readKind = .ok (k, s.advance k.headerBytes.length) := by
  cases hin : s.input with
  | nil => simp [hin, Rlp.readKind] at h
  | cons b bs =>
  have hbs : ∀ x ∈ bs, x < 256 := fun x hx => hb x (by simp [hin, hx])
  rw [hin, Rlp.readKind] at h
  unfold readKind
  have hhead : s.input.head? = some b := by simp [hin]
  rw [readByte_eq_ok.mpr ⟨hfit.le (headerBytes_length_pos k), hhead, rfl⟩, bind_ok]
  dsimp only
  by_cases h1 : b < 0x80
  · rw [if_pos h1] at h ⊢
    cases h
    rfl
  by_cases h2 : b < 0xB8
  · rw [if_neg h1, if_pos h2] at h ⊢
    cases h
    rw [Kind.headerBytes, header_length_of_lt (by omega)]
    rfl
  by_cases h3 : b < 0xC0
  · rw [if_neg h1, if_neg h2, if_pos h3] at h ⊢
    obtain ⟨⟨v, r⟩, hlong, hk⟩ := Option.map_eq_some_iff.mp h
    cases hk
    obtain ⟨hu, hv⟩ := readUint_of_long hin hbs (by omega) hlong hfit
    rw [hu, bind_ok]
    dsimp only
    rw [if_neg hv]
    rfl
  by_cases h4 : b < 0xF8
  · rw [if_neg h1, if_neg h2, if_neg h3, if_pos h4] at h ⊢
    cases h
    rw [Kind.headerBytes, header_length_of_lt (by omega)]
    rfl
  · rw [if_neg h1, if_neg h2, if_neg h3, if_neg h4] at h ⊢
    split_ifs at h with h5
    obtain ⟨⟨v, r⟩, hlong, hk⟩ := Option.map_eq_some_iff.mp h
    cases hk
    obtain ⟨hu, hv⟩ := readUint_of_long hin hbs (by omega) hlong hfit
    rw [hu, bind_ok]
    dsimp only
    rw [if_neg hv]
    rfl

/-! ## Kind, Bytes, List and ListEnd -/

/-- The stream once `List` has opened a list of `size` bytes. -/
def enter (s : Stream) (size : Nat) : Stream :=
  { s with stack := ⟨0, size⟩ :: s.stack, cached := none }

theorem kind_eol {s : Stream} (hc : s.cached = none)
    (hend : ∃ tos ∈ s.stack.head?, tos.pos = tos.size) : s.kind = .error .eol := by
  obtain ⟨tos, htos, heq⟩ := hend
  have hany : s.stack.head?.any (fun tos => tos.pos = tos.size) = true := by
    rw [Option.mem_def] at htos
    simp [htos, heq]
  unfold kind
  rw [hc]
  dsimp only
  rw [if_pos hany]

/-- A header that `Kind` reads is the one `Lib.Rlp` reads, and `Kind` caches it. -/
theorem kind_sound {s s' : Stream} {k : Kind} (hc : s.cached = none) (hb : ∀ x ∈ s.input, x < 256)
    (h : s.kind = .ok (k, s')) :
    Rlp.readKind s.input = some (k, (s.advance k.headerBytes.length).input) ∧
      s' = { s.advance k.headerBytes.length with cached := some k } := by
  unfold kind at h
  rw [hc] at h
  dsimp only at h
  split_ifs at h with hend
  rw [bind_eq_ok] at h
  obtain ⟨⟨k₁, s₁⟩, hread, h⟩ := h
  obtain ⟨hrlp, -, rfl⟩ := readKind_sound hb hread
  -- the size check after the header either refuses or caches the kind
  dsimp only at h
  split at h <;> split_ifs at h <;> cases h <;> exact ⟨hrlp, rfl⟩

/-- What `Lib.Rlp` reads as a header, `Kind` reads and caches when the header and its value fit. -/
theorem kind_complete {s : Stream} {k : Kind} {rest : List Nat} (hc : s.cached = none)
    (hb : ∀ x ∈ s.input, x < 256) (h : Rlp.readKind s.input = some (k, rest))
    (hfit : s.Fits (k.headerBytes.length + k.size)) :
    s.kind = .ok (k, { s.advance k.headerBytes.length with cached := some k }) := by
  have hpos := headerBytes_length_pos k
  have hroom := hfit.advance
  have hnot : s.stack.head?.any (fun tos => tos.pos = tos.size) = false := by
    cases hst : s.stack with
    | nil => rfl
    | cons tos rest =>
      have := hfit.2 tos (by simp [hst])
      simp only [List.head?_cons, Option.any_some, decide_eq_false_iff_not]
      omega
  unfold kind
  rw [hc]
  dsimp only
  rw [if_neg (by simp [hnot]), readKind_complete hb h (hfit.le (by omega)), bind_ok]
  dsimp only
  -- the room check passes: the value fits what is left after the header
  cases hst : (s.advance k.headerBytes.length).stack with
  | nil =>
    dsimp only
    rw [if_neg (by have := hroom.1; omega)]
    rfl
  | cons tos more =>
    dsimp only
    rw [if_neg (by have := hroom.2 tos (by rw [hst]; rfl); omega)]
    rfl

theorem bytes_byte {s : Stream} {b : Nat} (hk : s.cached = some (.byte b)) :
    s.bytes = .ok ([b], { s with cached := none }) := by
  simp [bytes, kind, hk, bind, Except.bind, pure, Except.pure]

/-- `Bytes` after a string header: the payload, unless it is one byte below `0x80`. -/
theorem bytes_string_eq_ok {s s' : Stream} {size : Nat} {bs : List Nat}
    (hk : s.cached = some (.string size)) :
    s.bytes = .ok (bs, s') ↔
      (s.Fits size ∧ size ≤ s.input.length ∧ bs = s.input.take size ∧ s' = s.advance size) ∧
        ¬ (size = 1 ∧ bs.headD 0 < 128) := by
  unfold bytes
  rw [show s.kind = .ok (.string size, s) by simp [kind, hk, pure, Except.pure], bind_ok]
  dsimp only
  rw [bind_eq_ok]
  constructor
  · rintro ⟨⟨b, s₁⟩, hread, h⟩
    dsimp only at h
    split_ifs at h with hcanon
    cases h
    exact ⟨readFull_eq_ok.mp hread, hcanon⟩
  · rintro ⟨hread, hcanon⟩
    refine ⟨(bs, s'), readFull_eq_ok.mpr hread, ?_⟩
    dsimp only
    rw [if_neg hcanon]
    rfl

/-- What `Bytes` reads after a string header: the payload of the header's size, which is not one
    byte below `0x80`. -/
theorem bytes_of_string {s s' : Stream} {size : Nat} {bs : List Nat}
    (h : ({ s with cached := some (.string size) } : Stream).bytes = .ok (bs, s')) :
    s.input = bs ++ s'.input ∧ bs.length = size ∧ s' = s.advance size ∧
      ¬ (size = 1 ∧ bs.headD 0 < 128) := by
  obtain ⟨⟨-, hlen, rfl, rfl⟩, hcanon⟩ := (bytes_string_eq_ok rfl).mp h
  dsimp only at hlen
  refine ⟨(List.take_append_drop size s.input).symm, by simp; omega, rfl, hcanon⟩

/-- `Bytes` after a string header reads a payload of the header's size that is not one byte below
    `0x80`. -/
theorem bytes_of_payload {s : Stream} {bs rest : List Nat} (hin : s.input = bs ++ rest)
    (hfit : s.Fits bs.length) (hcanon : ¬ (bs.length = 1 ∧ bs.headD 0 < 128)) :
    ({ s with cached := some (.string bs.length) } : Stream).bytes = .ok (bs, s.advance bs.length) :=
  (bytes_string_eq_ok rfl).mpr ⟨⟨hfit, by simp [hin], by simp [hin], rfl⟩, hcanon⟩

theorem bytes_list {s : Stream} {size : Nat} (hk : s.cached = some (.list size)) :
    s.bytes = .error .expectedString := by
  simp [bytes, kind, hk, bind, Except.bind, pure, Except.pure]

@[simp] theorem enter_input (s : Stream) (size : Nat) : (s.enter size).input = s.input := rfl

theorem advance_setCached (s : Stream) (k : Option Kind) (n : Nat) :
    ({ s with cached := k } : Stream).advance n = s.advance n := rfl

theorem enter_setCached (s : Stream) (k : Option Kind) (n : Nat) :
    ({ s with cached := k } : Stream).enter n = s.enter n := rfl

theorem list_eq {s : Stream} {size : Nat} (hk : s.cached = some (.list size)) :
    s.list = .ok (size, s.enter size) := by
  simp [list, kind, hk, bind, Except.bind, pure, Except.pure, enter]

/-- Closing a list of `size` bytes after reading `m` bytes of it succeeds exactly when `m` is its
    size, and then the enclosing stream has moved past the list. -/
theorem listEnd_enter_eq_ok {s s' : Stream} {size m : Nat} :
    ((s.enter size).advance m).listEnd = .ok s' ↔ m = size ∧ s' = s.advance size := by
  simp only [listEnd, Stream.advance, count, enter, bump, Nat.zero_add]
  by_cases hm : m = size
  · subst hm
    -- the inner match of ListEnd is the move of the enclosing list
    cases s.stack <;> simp [pure, Except.pure, eq_comm]
  · simp [hm]

end Stream

/-! ## Reading trees

`ReadsCanonical` says of a reader of one tree that it consumes the encoding of the tree it returns;
`ReadsBack`, that it returns a tree when the stream starts with its encoding and the encoding fits;
`EolAtEnd`, that it answers `EOL` at the end of a list.  The list decoders keep each of them from
the element decoder, and so `decodeInterface` has them at every fuel. -/

section Trees

variable {elemdec : Stream → Except StreamErr (Item × Stream)}

/-- A reader that consumes exactly the encoding of the tree it returns. -/
def ReadsCanonical (elemdec : Stream → Except StreamErr (Item × Stream)) : Prop :=
  ∀ (s s' : Stream) (t : Item), (∀ x ∈ s.input, x < 256) → s.cached = none →
    elemdec s = .ok (t, s') → s.input = t.encode ++ s'.input ∧ s' = s.advance t.encode.length

/-- A reader that returns `t` from a stream that starts with its encoding, when it fits. -/
def ReadsBack (elemdec : Stream → Except StreamErr (Item × Stream)) (t : Item) : Prop :=
  ∀ (s : Stream) (rest : List Nat), (∀ x ∈ s.input, x < 256) → s.cached = none →
    s.input = t.encode ++ rest → s.Fits t.encode.length →
    elemdec s = .ok (t, s.advance t.encode.length)

/-- A reader that answers `EOL` at the end of the innermost list. -/
def EolAtEnd (elemdec : Stream → Except StreamErr (Item × Stream)) : Prop :=
  ∀ s : Stream, s.cached = none → (∃ tos ∈ s.stack.head?, tos.pos = tos.size) →
    elemdec s = .error .eol

theorem bytes_of_append {l a r : List Nat} (hb : ∀ x ∈ l, x < 256) (h : l = a ++ r) :
    ∀ x ∈ r, x < 256 :=
  fun x hx => hb x (h ▸ List.mem_append_right a hx)

/-- The items of a list are read one encoding after another, up to `EOL`. -/
theorem decodeSliceElems_canonical (hdec : ReadsCanonical elemdec) :
    ∀ (count : Nat) {s s' : Stream} {xs : List Item}, (∀ x ∈ s.input, x < 256) →
      s.cached = none → decodeSliceElems elemdec count s = .ok (xs, s') →
      s.input = encodeItems xs ++ s'.input ∧ s' = s.advance (encodeItems xs).length
  | 0, _, _, _, _, _, h => by cases h
  | count + 1, s, s', xs, hb, hc, h => by
    unfold decodeSliceElems at h
    cases he : elemdec s with
    | error e =>
      rw [he] at h
      -- only `EOL` ends the items, with nothing read
      cases e
      case eol =>
        cases h
        exact ⟨rfl, (Stream.advance_zero hc).symm⟩
      all_goals cases h
    | ok r =>
      obtain ⟨x, s₁⟩ := r
      rw [he] at h
      dsimp only at h
      rw [bind_eq_ok] at h
      obtain ⟨⟨ys, s₂⟩, hrec, h⟩ := h
      cases h
      obtain ⟨hin, rfl⟩ := hdec s s₁ x hb hc he
      obtain ⟨hin', rfl⟩ := decodeSliceElems_canonical hdec count (bytes_of_append hb hin) rfl hrec
      refine ⟨by rw [hin, hin', encodeItems_cons, List.append_assoc], ?_⟩
      rw [Stream.advance_advance, encodeItems_cons, List.length_append]

/-- A list read after its header: its items fill exactly the size in the header. -/
theorem decodeListSlice_canonical (hdec : ReadsCanonical elemdec) {count size : Nat}
    {s s' : Stream} {xs : List Item} (hb : ∀ x ∈ s.input, x < 256)
    (h : decodeListSlice elemdec count { s with cached := some (.list size) } = .ok (xs, s')) :
    s.input = encodeItems xs ++ s'.input ∧ size = (encodeItems xs).length ∧
      s' = s.advance size := by
  unfold decodeListSlice at h
  rw [Stream.list_eq rfl, bind_ok] at h
  dsimp only at h
  rw [Stream.enter_setCached] at h
  by_cases hzero : size = 0
  · -- an empty list is closed at once
    rw [if_pos hzero, bind_eq_ok] at h
    obtain ⟨s₂, hend, h⟩ := h
    cases h
    rw [← Stream.advance_zero (show (s.enter size).cached = none from rfl)] at hend
    obtain ⟨-, rfl⟩ := Stream.listEnd_enter_eq_ok.mp hend
    subst hzero
    exact ⟨by simp, rfl, rfl⟩
  · rw [if_neg hzero, bind_eq_ok] at h
    obtain ⟨⟨ys, s₃⟩, helems, h⟩ := h
    dsimp only at h
    rw [bind_eq_ok] at h
    obtain ⟨s₄, hend, h⟩ := h
    cases h
    obtain ⟨hin, rfl⟩ := decodeSliceElems_canonical hdec count (s := s.enter size) hb rfl helems
    obtain ⟨hlen, rfl⟩ := Stream.listEnd_enter_eq_ok.mp hend
    subst hlen
    exact ⟨hin, rfl, rfl⟩

/-- What `decodeInterface` reads of bytes is the encoding of the tree it returns. -/
theorem decodeInterface_canonical : ∀ fuel : Nat, ReadsCanonical (decodeInterface fuel)
  | 0 => fun _ _ _ _ _ h => by cases h
  | fuel + 1 => fun s s' t hb hc h => by
    unfold decodeInterface at h
    rw [bind_eq_ok] at h
    obtain ⟨⟨k, s₁⟩, hkind, h⟩ := h
    obtain ⟨hrlp, rfl⟩ := Stream.kind_sound hc hb hkind
    have hin := readKind_canonical hb hrlp
    have hb₁ := bytes_of_append hb hin
    cases k with
    | byte b =>
      dsimp only at h
      rw [Stream.bytes_byte rfl, bind_ok] at h
      cases h
      have hlt := readKind_byte hrlp
      have henc : (Item.str [b]).encode = [b] := by simp [Item.encode, encodeString, hlt]
      rw [henc]
      exact ⟨hin, rfl⟩
    | string size =>
      dsimp only at h
      rw [bind_eq_ok] at h
      obtain ⟨⟨bs, s₂⟩, hbytes, h⟩ := h
      cases h
      obtain ⟨hpay, hlen, rfl, hcanon⟩ := Stream.bytes_of_string hbytes
      have henc : (Item.str bs).encode = (Kind.string size).headerBytes ++ bs := by
        rw [Item.encode, encodeString, if_neg (by rw [hlen]; exact hcanon), hlen]
        rfl
      dsimp only
      rw [henc, List.append_assoc, ← hpay, List.length_append, hlen, ← Stream.advance_advance]
      exact ⟨hin, rfl⟩
    | list size =>
      dsimp only at h
      rw [bind_eq_ok] at h
      obtain ⟨⟨xs, s₂⟩, hslice, h⟩ := h
      cases h
      obtain ⟨hpay, hsize, rfl⟩ :=
        decodeListSlice_canonical (decodeInterface_canonical fuel) hb₁ hslice
      have henc : (Item.list xs).encode = (Kind.list size).headerBytes ++ encodeItems xs := by
        simp [Item.encode, Kind.headerBytes, hsize]
      dsimp only
      rw [henc, List.append_assoc, ← hpay, List.length_append, ← hsize, ← Stream.advance_advance]
      exact ⟨hin, rfl⟩

theorem decodeInterface_eol (fuel : Nat) : EolAtEnd (decodeInterface (fuel + 1)) := by
  intro s hc hend
  unfold decodeInterface
  rw [Stream.kind_eol hc hend]
  rfl

/-- Items whose encodings fill the rest of the innermost list are read back, up to `EOL`. -/
theorem decodeSliceElems_encode (heol : EolAtEnd elemdec) :
    ∀ {xs : List Item}, (∀ x ∈ xs, ReadsBack elemdec x) →
      ∀ (count : Nat) (s : Stream) (rest : List Nat) (tos : ListPos) (up : List ListPos),
      xs.length < count → (∀ x ∈ s.input, x < 256) → s.cached = none →
      s.input = encodeItems xs ++ rest → s.stack = tos :: up →
      tos.pos + (encodeItems xs).length = tos.size → (encodeItems xs).length ≤ s.remaining →
      decodeSliceElems elemdec count s = .ok (xs, s.advance (encodeItems xs).length)
  | [], _, count, s, rest, tos, up, hcount, _, hc, _, hst, hend, _ => by
    obtain ⟨count, rfl⟩ : ∃ c, count = c + 1 := ⟨count - 1, by simp at hcount; omega⟩
    have heol' := heol s hc ⟨tos, by simp [hst], by simpa using hend⟩
    unfold decodeSliceElems
    rw [heol', encodeItems_nil, List.length_nil, Stream.advance_zero hc]
    rfl
  | x :: xs, hdec, count, s, rest, tos, up, hcount, hb, hc, hin, hst, hend, hrem => by
    obtain ⟨count, rfl⟩ : ∃ c, count = c + 1 := ⟨count - 1, by simp at hcount; omega⟩
    simp only [encodeItems_cons, List.length_append] at hin hend hrem ⊢
    -- the first item fits what is left of the list and of the input
    have hfit : s.Fits x.encode.length := ⟨by omega, fun t ht => by
      simp only [hst, List.head?_cons, Option.mem_def, Option.some.injEq] at ht
      subst ht
      omega⟩
    have hin' : s.input = x.encode ++ (encodeItems xs ++ rest) := by rw [hin, List.append_assoc]
    have hx := hdec x List.mem_cons_self s (encodeItems xs ++ rest) hb hc hin' hfit
    have hrest : (s.advance x.encode.length).input = encodeItems xs ++ rest := by simp [hin']
    have hxs := decodeSliceElems_encode heol (fun y hy => hdec y (List.mem_cons_of_mem x hy)) count
      (s.advance x.encode.length) rest { tos with pos := tos.pos + x.encode.length } up
      (by simp at hcount; omega) (bytes_of_append hb (by rw [hrest]; exact hin'))
      rfl hrest (by simp [hst, Stream.bump]) (by simp only; omega) (by simp; omega)
    unfold decodeSliceElems
    rw [hx]
    dsimp only
    rw [hxs, bind_ok, Stream.advance_advance]
    rfl

/-- A list payload after its header is read back as the list's items. -/
theorem decodeListSlice_encode (heol : EolAtEnd elemdec) {xs : List Item}
    (hdec : ∀ x ∈ xs, ReadsBack elemdec x) {count : Nat} {s : Stream} {rest : List Nat}
    (hcount : xs.length < count) (hb : ∀ x ∈ s.input, x < 256)
    (hin : s.input = encodeItems xs ++ rest) (hrem : (encodeItems xs).length ≤ s.remaining) :
    decodeListSlice elemdec count { s with cached := some (.list (encodeItems xs).length) } =
      .ok (xs, s.advance (encodeItems xs).length) := by
  unfold decodeListSlice
  rw [Stream.list_eq rfl, bind_ok]
  dsimp only
  rw [Stream.enter_setCached]
  by_cases hzero : (encodeItems xs).length = 0
  · -- no bytes, so no items: the list is closed at once
    have hnil : xs = [] := List.eq_nil_of_length_eq_zero (by have := length_le_encodeItems xs; omega)
    have hend := (@Stream.listEnd_enter_eq_ok s (s.advance (encodeItems xs).length)
      (encodeItems xs).length 0).mpr ⟨hzero.symm, rfl⟩
    rw [Stream.advance_zero rfl] at hend
    rw [if_pos hzero, hend, bind_ok, hnil]
    rfl
  · rw [if_neg hzero, decodeSliceElems_encode heol hdec count (s.enter (encodeItems xs).length) rest
      ⟨0, (encodeItems xs).length⟩ s.stack hcount hb rfl hin rfl (Nat.zero_add _) hrem, bind_ok]
    dsimp only
    rw [Stream.listEnd_enter_eq_ok.mpr ⟨rfl, rfl⟩, bind_ok]
    rfl

/-- `decodeInterface` reads back every tree whose encoding starts the stream and fits it, with more
    fuel than the encoding has bytes. -/
theorem decodeInterface_encode (t : Item) :
    ∀ fuel, t.encode.length < fuel → t.encode.length < 2 ^ 64 →
      ReadsBack (decodeInterface fuel) t := by
  induction t using Item.induction with
  | str bs =>
    intro fuel hfuel hlen s rest hb hc hin hfit
    obtain ⟨f, rfl⟩ : ∃ f, fuel = f + 1 :=
      ⟨fuel - 1, by have := List.length_pos_iff.mpr (encode_ne_nil (.str bs)); omega⟩
    by_cases hsingle : bs.length = 1 ∧ bs.headD 0 < 0x80
    · -- a single byte below `0x80` is its own header
      obtain ⟨b, rfl⟩ : ∃ b, bs = [b] := List.length_eq_one_iff.mp hsingle.1
      have hlt : b < 0x80 := hsingle.2
      have henc : (Item.str [b]).encode = (Kind.byte b).headerBytes := by
        simp [Item.encode, encodeString, hlt, Kind.headerBytes]
      rw [henc] at hin hfit ⊢
      have hrk : Rlp.readKind s.input = some (.byte b, rest) := by
        simp [hin, Rlp.readKind, hlt, Kind.headerBytes]
      unfold decodeInterface
      rw [Stream.kind_complete hc hb hrk hfit, bind_ok]
      dsimp only
      rw [Stream.bytes_byte rfl, bind_ok]
      rfl
    · have henc : (Item.str bs).encode = (Kind.string bs.length).headerBytes ++ bs := by
        rw [Item.encode, encodeString, if_neg hsingle]
        rfl
      have hbs : bs.length < 2 ^ 64 := by
        rw [henc, List.length_append] at hlen
        omega
      rw [henc, List.length_append] at hfit ⊢
      rw [henc, List.append_assoc] at hin
      have hrk : Rlp.readKind s.input = some (.string bs.length, bs ++ rest) := by
        rw [hin]
        exact readKind_string_header hbs _
      have hpay : (s.advance (Kind.string bs.length).headerBytes.length).input = bs ++ rest := by
        simp [hin]
      unfold decodeInterface
      rw [Stream.kind_complete hc hb hrk hfit, bind_ok]
      dsimp only
      rw [Stream.bytes_of_payload hpay hfit.advance hsingle, bind_ok, Stream.advance_advance]
      rfl
  | list xs ih =>
    intro fuel hfuel hlen s rest hb hc hin hfit
    have hpay := encodeItems_length_lt xs
    -- one fuel for the list, at least one for its items' reader
    obtain ⟨f, rfl⟩ : ∃ f, fuel = f + 2 :=
      ⟨fuel - 2, by have := List.length_pos_iff.mpr (encode_ne_nil (.list xs)); omega⟩
    have henc : (Item.list xs).encode =
        (Kind.list (encodeItems xs).length).headerBytes ++ encodeItems xs := by
      rw [Item.encode]
      rfl
    rw [henc, List.length_append] at hfit ⊢
    rw [henc, List.append_assoc] at hin
    have hrk : Rlp.readKind s.input = some (.list (encodeItems xs).length, encodeItems xs ++ rest) := by
      rw [hin]
      exact readKind_list_header (by omega) _
    have hitems : ∀ x ∈ xs, ReadsBack (decodeInterface (f + 1)) x := fun x hx =>
      ih x hx (f + 1) (by have := encode_length_le hx; omega) (by have := encode_length_le hx; omega)
    have hpay' : (s.advance (Kind.list (encodeItems xs).length).headerBytes.length).input =
        encodeItems xs ++ rest := by
      simp [hin]
    unfold decodeInterface
    rw [Stream.kind_complete hc hb hrk hfit, bind_ok]
    dsimp only
    rw [decodeListSlice_encode (decodeInterface_eol f) hitems
      (by have := length_le_encodeItems xs; omega) (bytes_of_append hb (by rw [hpay']; exact hin))
      hpay' hfit.advance.1, bind_ok, Stream.advance_advance]
    rfl

end Trees

/-- `DecodeBytes` into an `interface{}`: one tree, and no input left (`ErrMoreThanOneValue`). -/
def decodeBytes (b : List Nat) : Except StreamErr Item := do
  let (t, s) ← decodeInterface (b.length + 1) (Stream.reset b)
  if 0 < s.input.length then .error .moreThanOneValue else pure t

/-! ## Trees of bytes -/

mutual
/-- Every string of the tree is made of bytes: the trees a Go `[]byte` and `[]interface{}` hold. -/
def Item.isBytes : Item → Bool
  | .str bs => bs.all (· < 256)
  | .list xs => isBytesItems xs
/-- Every item of the list is a tree of bytes. -/
def isBytesItems : List Item → Bool
  | [] => true
  | x :: xs => x.isBytes && isBytesItems xs
end

theorem isBytesItems_iff {xs : List Item} : isBytesItems xs = true ↔ ∀ x ∈ xs, x.isBytes = true := by
  induction xs with
  | nil => simp [isBytesItems]
  | cons x xs ih => simp [isBytesItems, ih]

/-- A header whose size fits eight bytes is made of bytes. -/
theorem header_lt {offset len : Nat} (hoff : offset ≤ 0xC0) (hlen : len < 2 ^ 64) :
    ∀ x ∈ header offset len, x < 256 := by
  unfold header
  split_ifs with hs
  · simp only [List.mem_singleton]
    omega
  · have h8 := byteLength_le_eight hlen
    intro x hx
    rcases List.mem_cons.mp hx with rfl | hx
    · omega
    · exact natBytes_lt hx

/-- A payload is made of bytes when each item's encoding is. -/
theorem encodeItems_lt {xs : List Item}
    (h : ∀ x ∈ xs, x.isBytes = true → x.encode.length < 2 ^ 64 → ∀ b ∈ x.encode, b < 256)
    (hall : ∀ x ∈ xs, x.isBytes = true) (hlen : (encodeItems xs).length < 2 ^ 64) :
    ∀ b ∈ encodeItems xs, b < 256 := by
  induction xs with
  | nil => simp
  | cons y ys ih =>
    intro b hb
    simp only [encodeItems_cons, List.length_append] at hb hlen
    rcases List.mem_append.mp hb with hb | hb
    · exact h y List.mem_cons_self (hall y List.mem_cons_self) (by omega) b hb
    · exact ih (fun z hz => h z (List.mem_cons_of_mem y hz))
        (fun z hz => hall z (List.mem_cons_of_mem y hz)) (by omega) b hb

/-- The encoding of a tree of bytes is made of bytes, when its length fits eight bytes. -/
theorem encode_lt (t : Item) : t.isBytes = true → t.encode.length < 2 ^ 64 →
    ∀ x ∈ t.encode, x < 256 := by
  induction t using Item.induction with
  | str bs =>
    intro hbytes hlen x hx
    simp only [Item.isBytes, List.all_eq_true, decide_eq_true_eq] at hbytes
    simp only [Item.encode, encodeString] at hx hlen
    split_ifs at hx hlen with hsingle
    · exact hbytes x hx
    · rcases List.mem_append.mp hx with hx | hx
      · exact header_lt (by decide) (by simp at hlen; omega) x hx
      · exact hbytes x hx
  | list xs ih =>
    intro hbytes hlen x hx
    have hpay := encodeItems_length_lt xs
    simp only [Item.encode, List.mem_append] at hx
    rcases hx with hx | hx
    · exact header_lt (by decide) (by omega) x hx
    · exact encodeItems_lt ih (isBytesItems_iff.mp hbytes) (by omega) x hx

/-- `DecodeBytes` reads back the encoding of every tree of bytes that fits a byte slice. -/
theorem decodeBytes_encode {t : Item} (hbytes : t.isBytes = true)
    (hlen : t.encode.length < 2 ^ 64) : decodeBytes t.encode = .ok t := by
  have hread := decodeInterface_encode t (t.encode.length + 1) (Nat.lt_succ_self _) hlen
    (Stream.reset t.encode) [] (encode_lt t hbytes hlen) rfl (List.append_nil _).symm
    ⟨Nat.le_refl _, by simp [Stream.reset]⟩
  unfold decodeBytes
  rw [hread, bind_ok]
  -- the read consumed the whole input
  simp [Stream.reset, pure, Except.pure]

/-- What `DecodeBytes` reads from bytes is the encoding of the tree it returns. -/
theorem decodeBytes_canonical {b : List Nat} {t : Item} (hb : ∀ x ∈ b, x < 256)
    (h : decodeBytes b = .ok t) : b = t.encode := by
  unfold decodeBytes at h
  rw [bind_eq_ok] at h
  obtain ⟨⟨t', s'⟩, hread, h⟩ := h
  dsimp only at h
  split_ifs at h with hleft
  cases h
  obtain ⟨hin, -⟩ := decodeInterface_canonical _ (Stream.reset b) s' t hb rfl hread
  have hnil : s'.input = [] := List.eq_nil_of_length_eq_zero (by omega)
  rw [hnil, List.append_nil] at hin
  exact hin

/-- A single byte below `0x80` under a header is refused. -/
example : decodeBytes [0xC3, 0x81, 0x7F, 0x80] = .error .canonSize := by rfl

/-- RLP is a bijection between trees of bytes and canonical byte strings: `encbuf` writes every
    tree, and a stream reset on what it writes reads the tree back (for an output that fits a byte
    slice); and every byte string from which the stream reads one tree and nothing more is what
    `encbuf` writes for that tree. -/
theorem rlp_bijection :
    (∀ t : Item, t.isBytes = true →
      ∃ b, encodeToBytes t = some b ∧ (b.length < 2 ^ 64 → decodeBytes b = .ok t)) ∧
    (∀ (b : List Nat) (t : Item), (∀ x ∈ b, x < 256) → decodeBytes b = .ok t →
      encodeToBytes t = some b) := by
  refine ⟨fun t hbytes => ⟨t.encode, encodeToBytes_eq t, decodeBytes_encode hbytes⟩, ?_⟩
  intro b t hb h
  rw [encodeToBytes_eq, decodeBytes_canonical hb h]

theorem rlp_bijection_nested :
    (∃ b, encodeToBytes (.list [.str [0x7F], .list [.str [0x80]], .str []]) = some b ∧
      (b.length < 2 ^ 64 →
        decodeBytes b = .ok (.list [.str [0x7F], .list [.str [0x80]], .str []]))) ∧
    encodeToBytes (.list [.str [0x7F], .list [.str [0x80]], .str []]) =
      some [0xC5, 0x7F, 0xC2, 0x81, 0x80, 0x80] :=
  ⟨rlp_bijection.1 _ (by decide),
    rlp_bijection.2 [0xC5, 0x7F, 0xC2, 0x81, 0x80, 0x80] _ (by decide) (by rfl)⟩

end QuorumHotstuff.Lib.Rlp
