import QuorumHotstuff.Trie.Node

/-!
# Hex keys packed in place, and keys read back

`hexToCompactInPlace` of `trie/encoding.go`, which the stack trie runs to hash a leaf: it packs a
hex key into the compact form of `hexToCompact` inside the key's own slice and returns the
compact form's length.  Its loop stores each packed byte at `bi` after reading the nibbles at
`ni` and `ni + 1`, and `bi` never passes `ni + 1`, so no nibble is overwritten before it is read
(`packInPlace_eq`); the slice then starts with `hexToCompact` of the key
(`hexToCompactInPlace_eq`).  The slice holds the nibbles as bytes.

`compactToHex` and `hexToKeybytes` undo `hexToCompact` and `keybytesToHex`.  The compact form is
the hex-prefix encoding: the flag nibble, a zero nibble where the key's length is even, and the
key, packed two nibbles a byte (`compactNibbles`, `hexToCompact_eq_decodeNibbles`).
`compactToHex` unpacks all of it and reads the flag back (`compactToHex_decodeNibbles`), so on a
key whose nibbles are below 16, the terminator apart, it gives the key back
(`compactToHex_hexToCompact`); `hexToKeybytes` packs the nibbles of `keybytesToHex` into the bytes
they came from (`hexToKeybytes_keybytesToHex`).  The model's compact keys are bytes held as `Nat`,
as the hasher takes them; `compactToHex` takes them as bytes, through `UInt8.ofNat`.
-/

namespace QuorumHotstuff.Trie

/-- The loop of `hexToCompactInPlace`, `hex[bi] = hex[ni]<<4 | hex[ni+1]` while `ni < hexLen`, in
    at most `fuel` rounds. -/
def packInPlace : Nat → Nat → Nat → Nat → List Nat → List Nat
  | 0, _, _, _, hex => hex
  | fuel + 1, hexLen, ni, bi, hex =>
    if ni < hexLen then
      packInPlace fuel hexLen (ni + 2) (bi + 1)
        (hex.set bi ((hex.getD ni 0 <<< 4) ||| hex.getD (ni + 1) 0))
    else hex

/-- `hexToCompactInPlace`: the slice with the compact form at its start, and the compact form's
    length.  A terminator sets bit 5 of the flag byte and is dropped; an odd length sets bit 4
    and keeps the first nibble in the flag byte.  An empty slice fails at `hex[0]`. -/
def hexToCompactInPlace (hex : List Nat) : Option (List Nat × Nat) :=
  let term := hex.getLast? == some 16
  let firstByte := if term then 1 <<< 5 else 0
  let hexLen := if term then hex.length - 1 else hex.length
  let binLen := hexLen / 2 + 1
  let (firstByte, ni) :=
    if hexLen % 2 = 1 then (firstByte ||| (1 <<< 4) ||| hex.getD 0 0, 1) else (firstByte, 0)
  match packInPlace hexLen hexLen ni 1 hex with
  | [] => none
  | _ :: rest => some (firstByte :: rest, binLen)

/-- The loop packs the `2 * m` nibbles from `ni` on into `m` bytes from `bi` on and leaves the
    rest of the slice as it was.  The invariant is `bi ≤ ni + 1`: every byte is stored below the
    nibbles still to be read. -/
theorem packInPlace_eq (m : Nat) :
    ∀ {fuel hexLen ni bi : Nat} {buf : List Nat} {ks : List Nibble}, m ≤ fuel →
      hexLen = ni + 2 * m → hexLen ≤ buf.length → bi ≤ ni + 1 → ks.length = 2 * m →
      (buf.drop ni).take (2 * m) = ks.map Fin.val →
      packInPlace fuel hexLen ni bi buf = buf.take bi ++ decodeNibbles ks ++ buf.drop (bi + m) := by
  induction m with
  | zero =>
    intro fuel hexLen ni bi buf ks _ hlen _ _ hks _
    rw [List.length_eq_zero_iff.mp hks]
    -- no round runs: the loop stops at once, or has no fuel
    cases fuel with
    | zero => simp [packInPlace, decodeNibbles]
    | succ fuel => simp [packInPlace, hlen, decodeNibbles]
  | succ m ih =>
    intro fuel hexLen ni bi buf ks hfuel hlen hbuf hbi hks hread
    obtain ⟨fuel, rfl⟩ : ∃ f, fuel = f + 1 := ⟨fuel - 1, by omega⟩
    obtain ⟨a, b, ks, rfl⟩ : ∃ a b ks', ks = a :: b :: ks' := by
      match ks, hks with
      | a :: b :: ks', _ => exact ⟨a, b, ks', rfl⟩
    -- the two nibbles read this round
    have hab : buf.getD ni 0 = a.val ∧ buf.getD (ni + 1) 0 = b.val := by
      have h0 := congrArg (·[0]?) hread
      have h1 := congrArg (·[1]?) hread
      simp only [List.getElem?_take, List.getElem?_drop, List.map_cons] at h0 h1
      simp only [List.getD_eq_getElem?_getD, Nat.add_zero, show 0 < 2 * (m + 1) by omega,
        show 1 < 2 * (m + 1) by omega, if_true] at h0 h1 ⊢
      simp [h0, h1, Nat.add_comm]
    -- the nibbles of the later rounds lie above every byte stored
    have hnext : ((buf.set bi ((a.val <<< 4) ||| b.val)).drop (ni + 2)).take (2 * m) =
        ks.map Fin.val := by
      rw [List.drop_set_of_lt (by omega)]
      have h2 := congrArg (List.drop 2) hread
      rw [List.drop_take, List.drop_drop] at h2
      simpa [Nat.add_comm, show 2 * (m + 1) - 2 = 2 * m by omega] using h2
    have htake : (buf.set bi ((a.val <<< 4) ||| b.val)).take (bi + 1) =
        buf.take bi ++ [(a.val <<< 4) ||| b.val] := by
      rw [List.set_eq_take_append_cons_drop, if_pos (by omega), List.take_append]
      simp [show bi ≤ buf.length by omega]
    rw [packInPlace, if_pos (by omega), hab.1, hab.2,
      ih (by omega) (by omega) (by simp; omega) (by omega) (by simp at hks; omega) hnext, htake,
      List.drop_set_of_lt (by omega)]
    simp [decodeNibbles, Nat.add_assoc, Nat.add_comm 1 m]

theorem length_decodeNibbles : ∀ ks : List Nibble, (decodeNibbles ks).length = ks.length / 2
  | [] => rfl
  | [_] => by simp [decodeNibbles]
  | _ :: _ :: ks => by
    simp only [decodeNibbles, List.length_cons, length_decodeNibbles ks]
    omega

/-- `hexToCompactInPlace` leaves `hexToCompact` of a key that is not empty at the start of its
    slice. -/
theorem hexToCompactInPlace_eq {key : List Nibble} (hkey : key ≠ []) :
    ∃ buf n, hexToCompactInPlace (key.map Fin.val) = some (buf, n) ∧
      buf.take n = hexToCompact key := by
  have hterm : ((key.map Fin.val).getLast? == some 16) = hasTerm key := by
    cases h : key.getLast? with
    | none => simp [hasTerm, h]
    | some x => simp [hasTerm, h, Fin.ext_iff]
  -- the nibbles before the terminator, if there is one, start the slice
  obtain ⟨hex, hhex⟩ : ∃ hex, hex = if hasTerm key = true then key.dropLast else key := ⟨_, rfl⟩
  have hlen : (if hasTerm key = true then key.length - 1 else key.length) = hex.length := by
    split_ifs at hhex ⊢ <;> simp [hhex]
  have hpre : (key.map Fin.val).take hex.length = hex.map Fin.val := by
    split_ifs at hhex <;> simp [hhex, List.dropLast_eq_take, List.map_take]
  have hflag : (if hasTerm key = true then 1 <<< 5 else 0) =
      (if hasTerm key = true then 1 else 0) <<< 5 := by
    split_ifs <;> rfl
  obtain ⟨x, xs, hbuf⟩ : ∃ x xs, key.map Fin.val = x :: xs := by
    cases key with
    | nil => exact absurd rfl hkey
    | cons k ks => exact ⟨_, _, rfl⟩
  unfold hexToCompactInPlace hexToCompact
  simp only [hterm, List.length_map]
  rw [← hhex, hlen, hflag]
  generalize (if hasTerm key = true then 1 else 0) <<< 5 = flag
  have hle : hex.length ≤ (key.map Fin.val).length := by
    rw [List.length_map]
    split_ifs at hhex <;> simp [hhex]
  rcases Nat.even_or_odd' hex.length with ⟨m, hm | hm⟩
  · -- an even length: the pairs from the first nibble on
    have hloop := @packInPlace_eq m hex.length hex.length 0 1 (key.map Fin.val) hex (by omega)
      (by omega) hle (by omega) hm (by rw [List.drop_zero, ← hm, hpre])
    rw [if_neg (by omega), hloop, hbuf]
    refine ⟨_, _, rfl, ?_⟩
    simp [length_decodeNibbles, hm]
  · -- an odd length: the first nibble goes to the flag byte
    have hread : ((key.map Fin.val).drop 1).take (2 * m) = hex.tail.map Fin.val := by
      rw [List.take_drop, Nat.add_comm, ← hm, hpre, List.map_tail, List.drop_one]
    have hloop := @packInPlace_eq m hex.length hex.length 1 1 (key.map Fin.val) hex.tail (by omega)
      (by omega) hle (by omega) (by simp; omega) hread
    rw [if_pos (by omega), hloop, hbuf]
    refine ⟨_, _, rfl, ?_⟩
    have hhead : x = (hex.headD 0).val := by
      obtain ⟨h, t, rfl⟩ : ∃ h t, hex = h :: t := by
        cases hex with
        | nil => simp at hm
        | cons h t => exact ⟨h, t, rfl⟩
      rw [hbuf, List.length_cons, List.take_succ_cons, List.map_cons] at hpre
      exact (List.cons.inj hpre).1
    simp [length_decodeNibbles, hm, hhead, show (2 * m + 1) / 2 = m by omega]

/-! ## Keys read back -/

/-- `compactToHex`: the nibbles of a compact key, cut after the flag nibble for an odd length and
    after the flag and its padding nibble for an even one; the terminator that `keybytesToHex`
    appends stays only where bit 5 of the flag byte is set.  An empty key stays empty. -/
def compactToHex (compact : List UInt8) : List Nibble :=
  if compact.length = 0 then [] else
  let base := keybytesToHex compact
  -- delete terminator flag
  let base := if (base.headD 0).val < 2 then base.dropLast else base
  -- apply odd flag
  let chop := 2 - ((base.headD 0).val &&& 1)
  base.drop chop

/-- `hexToKeybytes`: the bytes of a hex key, its terminator dropped.  A key of an odd number of
    nibbles panics, here `none`. -/
def hexToKeybytes (hex : List Nibble) : Option (List UInt8) :=
  let hex := if hasTerm hex then hex.dropLast else hex
  if hex.length % 2 ≠ 0 then none
  else some ((decodeNibbles hex).map UInt8.ofNat)

/-- The nibbles of a compact key, two a byte: the flag nibble (terminator in bit 1, odd length in
    bit 0), a zero nibble to fill an even length, then the key's nibbles. -/
def compactNibbles (term : Bool) (hex : List Nibble) : List Nibble :=
  if hex.length % 2 = 1 then ⟨(if term then 2 else 0) + 1, by split <;> omega⟩ :: hex
  else ⟨if term then 2 else 0, by split <;> omega⟩ :: 0 :: hex

theorem toNat_packNibbles {a b : Nat} (ha : a < 16) (hb : b < 16) :
    (UInt8.ofNat ((a <<< 4) ||| b)).toNat = a * 16 + b := by
  rw [← Nat.shiftLeft_add_eq_or_of_lt (show b < 2 ^ 4 by omega), Nat.shiftLeft_eq,
    UInt8.toNat_ofNat_of_lt' (by unfold UInt8.size; omega)]

/-- Unpacking the bytes of packed nibbles gives the nibbles back. -/
theorem flatMap_decodeNibbles : ∀ {ks : List Nibble}, (∀ k ∈ ks, k.val < 16) →
    ks.length % 2 = 0 →
    ((decodeNibbles ks).map UInt8.ofNat).flatMap (fun b => [hiNibble b, loNibble b]) = ks
  | [], _, _ => rfl
  | [_], _, hlen => by simp at hlen
  | a :: b :: ks, hks, hlen => by
    have ha := hks a (by simp)
    have hb := hks b (by simp)
    have hrest := @flatMap_decodeNibbles ks (fun k hk => hks k (by simp [hk]))
      (by simp at hlen; omega)
    simp only [decodeNibbles, List.map_cons, List.flatMap_cons, hrest, List.cons_append,
      List.nil_append, List.cons.injEq, and_true]
    constructor <;> ext <;> simp only [hiNibble, loNibble, toNat_packNibbles ha hb] <;> omega

/-- Packing the nibbles of bytes gives the bytes back. -/
theorem decodeNibbles_flatMap : ∀ str : List UInt8,
    decodeNibbles (str.flatMap fun b => [hiNibble b, loNibble b]) = str.map UInt8.toNat
  | [] => rfl
  | b :: str => by
    have hb : (b.toNat / 16) <<< 4 ||| b.toNat % 16 = b.toNat := by
      rw [← Nat.shiftLeft_add_eq_or_of_lt (show b.toNat % 16 < 2 ^ 4 by omega), Nat.shiftLeft_eq]
      omega
    simp only [List.flatMap_cons, List.cons_append, List.nil_append, decodeNibbles,
      decodeNibbles_flatMap str, List.map_cons, List.cons.injEq, and_true]
    exact hb

/-- A key of nibbles below 16, with or without the terminator after them, has the terminator
    exactly when it was appended. -/
theorem hasTerm_append {hex : List Nibble} (hhex : ∀ k ∈ hex, k.val < 16) (term : Bool) :
    hasTerm (hex ++ if term then [16] else []) = term := by
  cases term with
  | true => simp [hasTerm]
  | false =>
    simp only [hasTerm, Bool.false_eq_true, if_false, List.append_nil, beq_eq_false_iff_ne]
    intro hlast
    have := hhex 16 (List.mem_of_getLast? hlast)
    simp at this

/-- `hexToCompact` packs the flag nibbles and the key two a byte. -/
theorem hexToCompact_eq_decodeNibbles (term : Bool) {hex : List Nibble}
    (hhex : ∀ k ∈ hex, k.val < 16) :
    hexToCompact (hex ++ if term then [16] else []) = decodeNibbles (compactNibbles term hex) := by
  have hcut : (if term = true then (hex ++ if term then [16] else []).dropLast
      else hex ++ if term then [16] else []) = hex := by
    cases term <;> simp
  simp only [hexToCompact, hasTerm_append hhex, hcut, compactNibbles]
  by_cases hodd : hex.length % 2 = 1
  · -- an odd length: the first nibble shares the flag byte
    obtain ⟨x, xs, rfl⟩ : ∃ x xs, hex = x :: xs := by
      cases hex with
      | nil => simp at hodd
      | cons x xs => exact ⟨x, xs, rfl⟩
    simp only [List.length_cons] at hodd
    cases term <;> simp [decodeNibbles, hodd]
  · have heven : hex.length % 2 = 0 := by omega
    cases term <;> simp [decodeNibbles, heven]

theorem compactNibbles_lt (term : Bool) {hex : List Nibble} (hhex : ∀ k ∈ hex, k.val < 16) :
    ∀ k ∈ compactNibbles term hex, k.val < 16 := by
  have hflag : (if term then 2 else 0) + 1 < 16 := by split <;> omega
  unfold compactNibbles
  by_cases hodd : hex.length % 2 = 1
  · simpa [hodd, hflag] using hhex
  · simpa [hodd, show (if term then 2 else 0) < 16 by omega] using hhex

theorem length_compactNibbles (term : Bool) (hex : List Nibble) :
    (compactNibbles term hex).length = hex.length + 2 - hex.length % 2 := by
  unfold compactNibbles
  by_cases hodd : hex.length % 2 = 1
  · simp [hodd]
  · simp [hodd]
    omega

/-- `compactToHex` reads the flag nibble off the packed nibbles and cuts the key out. -/
theorem compactToHex_decodeNibbles (term : Bool) {hex : List Nibble}
    (hhex : ∀ k ∈ hex, k.val < 16) :
    compactToHex ((decodeNibbles (compactNibbles term hex)).map UInt8.ofNat) =
      hex ++ if term then [16] else [] := by
  have hlen := length_compactNibbles term hex
  have hbase : keybytesToHex ((decodeNibbles (compactNibbles term hex)).map UInt8.ofNat) =
      compactNibbles term hex ++ [16] := by
    rw [keybytesToHex, flatMap_decodeNibbles (compactNibbles_lt term hhex) (by omega)]
  have hne : ((decodeNibbles (compactNibbles term hex)).map UInt8.ofNat).length ≠ 0 := by
    rw [List.length_map, length_decodeNibbles]
    omega
  rw [compactToHex, if_neg hne, hbase]
  -- the flag nibble says how many nibbles to cut and whether the terminator stays
  unfold compactNibbles
  by_cases hodd : hex.length % 2 = 1
  · cases term <;> simp [hodd, List.dropLast_cons_of_ne_nil]
  · cases term <;> simp [hodd, List.dropLast_cons_of_ne_nil]

/-- A key whose nibbles are below 16 but for the last, which may be the terminator, is nibbles
    below 16 with the terminator after them or without. -/
theorem exists_nibbles_of_dropLast {h : List Nibble} (hh : ∀ x ∈ h.dropLast, x.val < 16) :
    ∃ (hex : List Nibble) (term : Bool), (∀ k ∈ hex, k.val < 16) ∧
      h = hex ++ if term then [16] else [] := by
  cases hlast : h.getLast? with
  | none => exact ⟨[], false, by simp, by simpa using List.getLast?_eq_none_iff.mp hlast⟩
  | some x =>
    have hsplit := List.dropLast_append_getLast? x hlast
    by_cases hx : x = 16
    · exact ⟨h.dropLast, true, hh, by rw [if_pos rfl, ← hx, hsplit]⟩
    · refine ⟨h, false, ?_, by simp⟩
      rw [← hsplit]
      intro k hk
      rcases List.mem_append.mp hk with hk | hk
      · exact hh k hk
      · rw [List.mem_singleton.mp hk]
        exact Nat.lt_of_le_of_ne (Nat.le_of_lt_succ x.isLt) (fun h16 => hx (Fin.ext h16))

theorem compactToHex_hexToCompact {h : List Nibble} (hh : ∀ x ∈ h.dropLast, x.val < 16) :
    compactToHex ((hexToCompact h).map UInt8.ofNat) = h := by
  obtain ⟨hex, term, hhex, rfl⟩ := exists_nibbles_of_dropLast hh
  rw [hexToCompact_eq_decodeNibbles term hhex, compactToHex_decodeNibbles term hhex]

example : compactToHex [0x3f, 0x1c, 0xb8] = [15, 1, 12, 11, 8, 16] := by decide

/-- The nibbles of a key, two a byte: its hex form without the terminator. -/
theorem dropLast_keybytesToHex (key : List UInt8) :
    (keybytesToHex key).dropLast = key.flatMap fun b => [hiNibble b, loNibble b] := by
  simp [keybytesToHex]

theorem hexToKeybytes_keybytesToHex (str : List UInt8) :
    hexToKeybytes (keybytesToHex str) = some str := by
  have hterm : hasTerm (keybytesToHex str) = true := by simp [hasTerm, keybytesToHex]
  have heven : (str.flatMap fun b => [hiNibble b, loNibble b]).length % 2 = 0 := by
    simp [List.length_flatMap]
  simp only [hexToKeybytes, hterm, if_true, dropLast_keybytesToHex, heven, decodeNibbles_flatMap]
  simp [Function.comp_def]

/-- The three encodings of a key convert into each other: compact keys read back into hex keys,
    the in-place packing agrees with `hexToCompact`, and byte keys come back from their hex form. -/
theorem hex_key_encodings_round_trip :
    (∀ h : List Nibble, (∀ x ∈ h.dropLast, x.val < 16) →
      compactToHex ((hexToCompact h).map UInt8.ofNat) = h) ∧
    (∀ h : List Nibble, (∀ x ∈ h.dropLast, x.val < 16) → h ≠ [] →
      ∃ buf n, hexToCompactInPlace (h.map Fin.val) = some (buf, n) ∧
        buf.take n = hexToCompact h) ∧
    (∀ str : List UInt8, hexToKeybytes (keybytesToHex str) = some str) :=
  ⟨fun _ hh => compactToHex_hexToCompact hh, fun _ _ hne => hexToCompactInPlace_eq hne,
    hexToKeybytes_keybytesToHex⟩

theorem hex_key_encodings_round_trip_leaf :
    compactToHex ((hexToCompact [1, 2, 3, 16]).map UInt8.ofNat) = [1, 2, 3, 16] ∧
      ∃ buf n, hexToCompactInPlace (([1, 2, 3, 16] : List Nibble).map Fin.val) = some (buf, n) ∧
        buf.take n = hexToCompact [1, 2, 3, 16] :=
  ⟨hex_key_encodings_round_trip.1 _ (by decide),
    hex_key_encodings_round_trip.2.1 _ (by decide) (by decide)⟩

end QuorumHotstuff.Trie
