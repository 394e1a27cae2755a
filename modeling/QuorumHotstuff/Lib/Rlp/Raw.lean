import QuorumHotstuff.Lib.Rlp.Stream

/-!
# Splitting raw RLP

`rlp/raw.go`: `Split` reads the header at the start of a byte slice and cuts the slice into the
first value's content and what follows it; `SplitString` and `SplitList` do so for a value of the
kind they expect, and `CountValues` counts the values laid one after another in a slice.  The
header is read by the file's own `readKind` and `readSize`, which refuse what the stream refuses:
a value longer than the slice (`ErrValueTooLarge`), a single byte below `0x80` written as a
one-byte string and a long size with a leading zero byte or below 56 (`ErrCanonSize`).

Over the encodings of `Lib.Rlp` they read back what was encoded: a string's bytes, a list's
payload, the number of items in a payload (`split_encodeString`, `split_encode_list`,
`countValues_encodeItems`).  The trie decodes its nodes with them.
-/

namespace QuorumHotstuff.Lib.Rlp.Raw

open QuorumHotstuff.Lib

/-- `readSize`: a size of `slen` big-endian bytes, from one to eight, refused with a leading zero
    byte or below 56. -/
def readSize (b : List Nat) (slen : Nat) : Except StreamErr Nat :=
  if b.length < slen then .error .unexpectedEOF
  else
    -- the switch over `slen` reads the first `slen` bytes; no case matches outside one to eight
    let s := if 1 ≤ slen ∧ slen ≤ 8 then beValue (b.take slen) else 0
    if s < 56 ∨ b.headD 0 = 0 then .error .canonSize else .ok s

/-- `readKind`: the kind of the value at the start of `buf`, the length of its tag and the length
    of its content, refused when the content runs past the slice. -/
def readKind : List Nat → Except StreamErr (Kind × Nat × Nat)
  | [] => .error .unexpectedEOF
  | b :: rest => do
    let (k, tagsize, contentsize) ←
      if b < 0x80 then pure (.byte b, 0, 1)
      else if b < 0xB8 then
        if b - 0x80 = 1 ∧ rest ≠ [] ∧ rest.headD 0 < 128 then .error .canonSize
        else pure (.string (b - 0x80), 1, b - 0x80)
      else if b < 0xC0 then do
        let s ← readSize rest (b - 0xB7)
        pure (.string s, b - 0xB7 + 1, s)
      else if b < 0xF8 then pure (.list (b - 0xC0), 1, b - 0xC0)
      else do
        let s ← readSize rest (b - 0xF7)
        pure (.list s, b - 0xF7 + 1, s)
    if (b :: rest).length - tagsize < contentsize then .error .valueTooLarge
    else pure (k, tagsize, contentsize)

/-- `Split`: the kind of the first value, its content, and the rest of the slice. -/
def split (b : List Nat) : Except StreamErr (Kind × List Nat × List Nat) := do
  let (k, ts, cs) ← readKind b
  pure (k, (b.drop ts).take cs, b.drop (ts + cs))

/-- `SplitString`: the content of a first value that is not a list, and the rest. -/
def splitString (b : List Nat) : Except StreamErr (List Nat × List Nat) := do
  let (k, content, rest) ← split b
  match k with
  | .list _ => .error .expectedString
  | _ => pure (content, rest)

/-- `SplitList`: the content of a first value that is a list, and the rest. -/
def splitList (b : List Nat) : Except StreamErr (List Nat × List Nat) := do
  let (k, content, rest) ← split b
  match k with
  | .list _ => pure (content, rest)
  | _ => .error .expectedList

/-- The loop of `CountValues` with `i` values counted; each round reads at least one byte, so
    rounds as many as the slice's bytes are enough, and running out is `outOfFuel`. -/
def countValuesLoop : Nat → List Nat → Nat → Except StreamErr Nat
  | _, [], i => .ok i
  | 0, _ :: _, _ => .error .outOfFuel
  | fuel + 1, b :: bs, i => do
    let (_, tagsize, size) ← readKind (b :: bs)
    countValuesLoop fuel ((b :: bs).drop (tagsize + size)) (i + 1)

/-- `CountValues`: the number of values laid one after another in `b`. -/
def countValues (b : List Nat) : Except StreamErr Nat := countValuesLoop b.length b 0

example : split [0x82, 0x01, 0x2C, 0xC0] = .ok (.string 2, [0x01, 0x2C], [0xC0]) := by decide

example : readKind [0x81, 0x05] = .error .canonSize := by decide

/-! ## Reading encodings back -/

/-- A long size the stream's reader reads, `readSize` reads too. -/
theorem readSize_of_readLongSize {n size : Nat} {bs rest : List Nat} (hn : 1 ≤ n) (hn8 : n ≤ 8)
    (h : readLongSize n bs = some (size, rest)) : readSize bs n = .ok size := by
  unfold readLongSize at h
  cases hr : Rlp.readSize n bs with
  | none => simp [hr] at h
  | some p =>
    obtain ⟨s, r⟩ := p
    rw [hr] at h
    dsimp only at h
    split_ifs at h with hsmall
    cases h
    unfold Rlp.readSize at hr
    split_ifs at hr with hbad
    cases hr
    have hok : ¬ (beValue (bs.take n) < 56 ∨ bs.headD 0 = 0) := by
      rintro (h56 | h0)
      · exact hsmall h56
      · exact hbad (.inr h0)
    have hrange : 1 ≤ n ∧ n ≤ 8 := ⟨hn, hn8⟩
    simp only [readSize, if_neg (fun hl => hbad (.inl hl)), if_pos hrange, if_neg hok]

/-- The size a long header carries, `readSize` reads from its bytes. -/
theorem readSize_natBytes {len : Nat} (h56 : 56 ≤ len) (hlen : len < 2 ^ 64) (rest : List Nat) :
    readSize (natBytes len ++ rest) (byteLength len) = .ok len :=
  readSize_of_readLongSize (byteLength_pos (by omega)) (byteLength_le_eight hlen)
    (readLongSize_natBytes h56 rest)

/-- The fit check at the end of `readKind`, passed by a value whose content lies in the slice. -/
theorem readKind_fits {b : Nat} {rest : List Nat} {k : Kind} {tagsize contentsize : Nat}
    (hfit : tagsize + contentsize ≤ (b :: rest).length) :
    (if (b :: rest).length - tagsize < contentsize then (.error .valueTooLarge : Except StreamErr _)
      else pure (k, tagsize, contentsize)) = .ok (k, tagsize, contentsize) := by
  rw [if_neg (by omega)]
  rfl

/-- The header of a string or a list, followed by its payload and anything after. -/
theorem readKind_header {off len : Nat} {payload : List Nat} (hoff : off = 0x80 ∨ off = 0xC0)
    (hlen : len < 2 ^ 64) (hpay : len ≤ payload.length)
    (hcanon : off = 0x80 → ¬ (len = 1 ∧ payload.headD 0 < 128)) :
    readKind (header off len ++ payload) =
      .ok (if off = 0x80 then .string len else .list len, (header off len).length, len) := by
  unfold header
  by_cases hs : len < 56
  · -- a short size sits in the header byte
    have hfit : 1 + len ≤ ((off + len) :: payload).length := by simp; omega
    simp only [if_pos hs, List.singleton_append, List.length_singleton]
    rcases hoff with rfl | rfl
    · have hcheck : ¬ (len = 1 ∧ payload ≠ [] ∧ payload.headD 0 < 128) := by
        rintro ⟨h1, -, h2⟩
        exact hcanon rfl ⟨h1, h2⟩
      simp only [readKind, if_neg (show ¬ 0x80 + len < 0x80 by omega),
        if_pos (show 0x80 + len < 0xB8 by omega), show 0x80 + len - 0x80 = len by omega,
        if_neg hcheck, pure_bind, if_true]
      exact readKind_fits hfit
    · simp only [readKind, if_neg (show ¬ 0xC0 + len < 0x80 by omega),
        if_neg (show ¬ 0xC0 + len < 0xB8 by omega), if_neg (show ¬ 0xC0 + len < 0xC0 by omega),
        if_pos (show 0xC0 + len < 0xF8 by omega), show 0xC0 + len - 0xC0 = len by omega, pure_bind]
      exact readKind_fits hfit
  · -- a long size follows the header byte in `byteLength len` bytes
    have h8 := byteLength_le_eight hlen
    have h1 := byteLength_pos (show 0 < len by omega)
    have hsize := readSize_natBytes (show 56 ≤ len by omega) hlen payload
    have hfit : byteLength len + 1 + len ≤
        ((off + 55 + byteLength len) :: (natBytes len ++ payload)).length := by
      simp; omega
    simp only [if_neg hs, List.cons_append, List.length_cons, natBytes_length]
    rcases hoff with rfl | rfl
    · simp only [readKind, if_neg (show ¬ 0x80 + 55 + byteLength len < 0x80 by omega),
        if_neg (show ¬ 0x80 + 55 + byteLength len < 0xB8 by omega),
        if_pos (show 0x80 + 55 + byteLength len < 0xC0 by omega),
        show 0x80 + 55 + byteLength len - 0xB7 = byteLength len by omega, hsize, bind_ok,
        pure_bind, if_true]
      exact readKind_fits hfit
    · simp only [readKind, if_neg (show ¬ 0xC0 + 55 + byteLength len < 0x80 by omega),
        if_neg (show ¬ 0xC0 + 55 + byteLength len < 0xB8 by omega),
        if_neg (show ¬ 0xC0 + 55 + byteLength len < 0xC0 by omega),
        if_neg (show ¬ 0xC0 + 55 + byteLength len < 0xF8 by omega),
        show 0xC0 + 55 + byteLength len - 0xF7 = byteLength len by omega, hsize, bind_ok,
        pure_bind]
      exact readKind_fits hfit

/-- `Split` succeeds where `readKind` does, and cuts the slice where it says. -/
theorem split_eq_ok {b content rest : List Nat} {k : Kind} :
    split b = .ok (k, content, rest) ↔
      ∃ ts cs, readKind b = .ok (k, ts, cs) ∧ (b.drop ts).take cs = content ∧
        b.drop (ts + cs) = rest := by
  unfold split
  rw [bind_eq_ok]
  constructor
  · rintro ⟨⟨k', ts, cs⟩, hk, h⟩
    simp only [pure, Except.pure, Except.ok.injEq, Prod.mk.injEq] at h
    obtain ⟨rfl, rfl, rfl⟩ := h
    exact ⟨ts, cs, hk, rfl, rfl⟩
  · rintro ⟨ts, cs, hk, rfl, rfl⟩
    exact ⟨(k, ts, cs), hk, rfl⟩

/-- A string's encoding splits into its bytes and what follows: a single byte below `0x80` is a
    value of kind byte, any other string one of kind string. -/
theorem split_encodeString {bs : List Nat} (hlen : bs.length < 2 ^ 64) (rest : List Nat) :
    split (encodeString bs ++ rest) = .ok
      (if bs.length = 1 ∧ bs.headD 0 < 0x80 then .byte (bs.headD 0) else .string bs.length,
        bs, rest) := by
  unfold encodeString
  by_cases hsingle : bs.length = 1 ∧ bs.headD 0 < 0x80
  · -- a single byte below `0x80` stands for itself
    obtain ⟨b, rfl⟩ : ∃ b, bs = [b] := List.length_eq_one_iff.mp hsingle.1
    simp only [List.headD_cons] at hsingle
    simp [split, readKind, hsingle.2]
    rfl
  · have hcanon : 0x80 = 0x80 → ¬ (bs.length = 1 ∧ (bs ++ rest).headD 0 < 128) := by
      rintro - ⟨h1, h2⟩
      rw [headD_append_of_ne_nil rest 0 (List.ne_nil_of_length_pos (by omega))] at h2
      exact hsingle ⟨h1, h2⟩
    rw [if_neg hsingle, if_neg hsingle, List.append_assoc, split,
      readKind_header (.inl rfl) hlen (by simp) hcanon, bind_ok]
    dsimp only
    rw [if_pos rfl, List.drop_left, List.take_left, ← List.drop_drop, List.drop_left, List.drop_left]
    rfl

/-- A list's encoding splits into its payload and what follows. -/
theorem split_encode_list {xs : List Item} (hlen : (encodeItems xs).length < 2 ^ 64)
    (rest : List Nat) :
    split ((Item.list xs).encode ++ rest) = .ok (.list (encodeItems xs).length, encodeItems xs, rest) := by
  rw [Item.encode, List.append_assoc, split,
    readKind_header (.inr rfl) hlen (by simp) (by simp), bind_ok]
  dsimp only
  rw [if_neg (by decide), List.drop_left, List.take_left, ← List.drop_drop, List.drop_left,
    List.drop_left]
  rfl

theorem splitString_encodeString {bs : List Nat} (hlen : bs.length < 2 ^ 64) (rest : List Nat) :
    splitString (encodeString bs ++ rest) = .ok (bs, rest) := by
  rw [splitString, split_encodeString hlen, bind_ok]
  split_ifs <;> rfl

theorem splitList_encode_list {xs : List Item} (hlen : (encodeItems xs).length < 2 ^ 64)
    (rest : List Nat) : splitList ((Item.list xs).encode ++ rest) = .ok (encodeItems xs, rest) := by
  rw [splitList, split_encode_list hlen, bind_ok]
  rfl

/-- An item's encoding splits off the front of what follows it. -/
theorem split_encode_rest (x : Item) (hlen : x.encode.length < 2 ^ 64) (rest : List Nat) :
    ∃ k content, split (x.encode ++ rest) = .ok (k, content, rest) := by
  cases x with
  | str bs =>
    have hbs : bs.length < 2 ^ 64 := by
      have : bs.length ≤ (Item.str bs).encode.length := by
        simp only [Item.encode, encodeString]
        split_ifs <;> simp
      omega
    exact ⟨_, _, split_encodeString hbs rest⟩
  | list xs =>
    have := encodeItems_length_lt xs
    exact ⟨_, _, split_encode_list (by omega) rest⟩

theorem encodeItems_append (xs ys : List Item) :
    encodeItems (xs ++ ys) = encodeItems xs ++ encodeItems ys := by
  induction xs with
  | nil => rfl
  | cons x xs ih => rw [List.cons_append, encodeItems_cons, encodeItems_cons, ih, List.append_assoc]

/-- `CountValues` counts the items of a list's payload, one round an item. -/
theorem countValuesLoop_encodeItems :
    ∀ {xs : List Item} (fuel i : Nat), xs.length ≤ fuel → (∀ x ∈ xs, x.encode.length < 2 ^ 64) →
      countValuesLoop fuel (encodeItems xs) i = .ok (i + xs.length)
  | [], fuel, i, _, _ => by cases fuel <;> rfl
  | x :: xs, fuel, i, hfuel, hlen => by
    obtain ⟨f, rfl⟩ : ∃ f, fuel = f + 1 := ⟨fuel - 1, by simp at hfuel; omega⟩
    obtain ⟨k, content, hsplit⟩ := split_encode_rest x (hlen x List.mem_cons_self) (encodeItems xs)
    obtain ⟨ts, cs, hkind, -, hdrop⟩ := split_eq_ok.mp hsplit
    obtain ⟨b, bs, hb⟩ : ∃ b bs, x.encode ++ encodeItems xs = b :: bs := by
      cases h : x.encode ++ encodeItems xs with
      | nil => exact absurd (List.append_eq_nil_iff.mp h).1 (encode_ne_nil x)
      | cons b bs => exact ⟨b, bs, rfl⟩
    rw [encodeItems_cons]
    rw [hb] at hkind hdrop ⊢
    rw [countValuesLoop, hkind, bind_ok]
    dsimp only
    rw [hdrop, countValuesLoop_encodeItems f (i + 1) (by simp at hfuel; omega)
      (fun y hy => hlen y (List.mem_cons_of_mem x hy))]
    congr 1
    simp only [List.length_cons]
    omega

theorem countValues_encodeItems {xs : List Item} (hlen : ∀ x ∈ xs, x.encode.length < 2 ^ 64) :
    countValues (encodeItems xs) = .ok xs.length := by
  rw [countValues, countValuesLoop_encodeItems _ 0 (length_le_encodeItems xs) hlen, Nat.zero_add]

end QuorumHotstuff.Lib.Rlp.Raw
