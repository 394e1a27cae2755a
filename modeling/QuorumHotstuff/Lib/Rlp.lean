import Mathlib.Data.List.Basic
import Mathlib.Tactic.Ring

/-!
# RLP: items, their encoding, and canonical decoding

Recursive-length prefix encoding as Go's `rlp` package writes and reads it.  An item is a byte
string or a list of items.  A string of one byte below `0x80` is that byte; any other string or
list is a header giving the length of its payload, followed by the payload.  A length below 56
sits in the header byte; a longer one follows it as a big-endian number of one to eight bytes.

Decoding reads a header (`readKind`) and then the payload, and refuses the non-canonical forms the
Go stream refuses: a single byte below `0x80` written as a one-byte string, and a long length with
a leading zero byte or below 56.  Bytes are natural numbers; the header of a payload of `2^64`
bytes or more has no room for its length, so the round trip holds for encodings shorter than that.

The main result is the round trip `parse_encode`: decoding the encoding of an item followed by
anything gives back the item and what follows.  The typed fields at the end (byte strings,
unsigned and big integers, fixed-width byte arrays) are the leaves of every struct encoding.
-/

namespace QuorumHotstuff.Lib.Rlp

theorem headD_append_of_ne_nil {l : List Nat} (r : List Nat) (d : Nat) (h : l ≠ []) :
    (l ++ r).headD d = l.headD d := by
  cases l with
  | nil => exact absurd rfl h
  | cons b l => rfl

/-! ## Big-endian numbers -/

/-- The big-endian bytes of `n` in a field of `w` bytes; what does not fit is dropped. -/
def beBytes : Nat → Nat → List Nat
  | 0, _ => []
  | w + 1, n => beBytes w (n / 256) ++ [n % 256]

/-- The big-endian value of a byte string. -/
def beValue (bs : List Nat) : Nat := bs.foldl (fun acc b => acc * 256 + b) 0

/-- The number of bytes of `n` without leading zeros, in at most `fuel` steps. -/
def byteLengthAux : Nat → Nat → Nat
  | 0, _ => 0
  | fuel + 1, n => if n = 0 then 0 else byteLengthAux fuel (n / 256) + 1

/-- The length of the shortest big-endian form of `n`, zero for zero. -/
def byteLength (n : Nat) : Nat := byteLengthAux n n

/-- `putint` and `big.Int.Bytes`: the shortest big-endian form of `n`, empty for zero. -/
def natBytes (n : Nat) : List Nat := beBytes (byteLength n) n

@[simp] theorem beBytes_length (w n : Nat) : (beBytes w n).length = w := by
  induction w generalizing n with
  | zero => rfl
  | succ w ih => simp [beBytes, ih]

theorem beBytes_lt {w n b : Nat} (h : b ∈ beBytes w n) : b < 256 := by
  induction w generalizing n with
  | zero => simp [beBytes] at h
  | succ w ih =>
    simp only [beBytes, List.mem_append, List.mem_singleton] at h
    rcases h with h | rfl
    · exact ih h
    · exact Nat.mod_lt _ (by decide)

theorem foldl_beValue (acc : Nat) (bs : List Nat) :
    bs.foldl (fun acc b => acc * 256 + b) acc = acc * 256 ^ bs.length + beValue bs := by
  induction bs generalizing acc with
  | nil => simp [beValue]
  | cons b bs ih =>
    unfold beValue at ih ⊢
    simp only [List.foldl_cons, Nat.zero_mul, Nat.zero_add]
    rw [ih, ih b, List.length_cons, Nat.pow_succ]
    ring

@[simp] theorem beValue_nil : beValue [] = 0 := rfl

theorem beValue_cons (b : Nat) (bs : List Nat) :
    beValue (b :: bs) = b * 256 ^ bs.length + beValue bs := by
  rw [beValue, List.foldl_cons, Nat.zero_mul, Nat.zero_add, foldl_beValue]

theorem beValue_append_singleton (bs : List Nat) (b : Nat) :
    beValue (bs ++ [b]) = beValue bs * 256 + b := by
  simp [beValue, List.foldl_append]

theorem beValue_beBytes (w n : Nat) : beValue (beBytes w n) = n % 256 ^ w := by
  induction w generalizing n with
  | zero => simp [beBytes, Nat.mod_one]
  | succ w ih =>
    rw [beBytes, beValue_append_singleton, ih, Nat.pow_succ', Nat.mod_mul]
    ring

/-- A string of bytes is below the power of 256 of its length. -/
theorem beValue_lt {bs : List Nat} (h : ∀ b ∈ bs, b < 256) : beValue bs < 256 ^ bs.length := by
  induction bs with
  | nil => simp
  | cons b bs ih =>
    have hb : b ≤ 255 := Nat.le_of_lt_succ (h b List.mem_cons_self)
    have hrest := ih fun x hx => h x (List.mem_cons_of_mem b hx)
    have hmul : b * 256 ^ bs.length ≤ 255 * 256 ^ bs.length := Nat.mul_le_mul_right _ hb
    rw [beValue_cons, List.length_cons, Nat.pow_succ]
    omega

theorem lt_pow_byteLengthAux (fuel n : Nat) (h : n ≤ fuel) : n < 256 ^ byteLengthAux fuel n := by
  induction fuel generalizing n with
  | zero => simp [byteLengthAux]; omega
  | succ fuel ih =>
    unfold byteLengthAux
    split_ifs with hn
    · simp [hn]
    · have := ih (n / 256) (by omega)
      rw [Nat.pow_succ]
      omega

theorem pow_byteLengthAux_le (fuel n : Nat) (h : n ≤ fuel) (hn : 0 < n) :
    256 ^ byteLengthAux fuel n ≤ 256 * n := by
  induction fuel generalizing n with
  | zero => omega
  | succ fuel ih =>
    unfold byteLengthAux
    rw [if_neg (by omega), Nat.pow_succ]
    by_cases hq : n / 256 = 0
    · have hz : byteLengthAux fuel (n / 256) = 0 := by
        rw [hq]
        cases fuel <;> simp [byteLengthAux]
      rw [hz]
      omega
    · have := ih (n / 256) (by omega) (by omega)
      omega

theorem lt_pow_byteLength (n : Nat) : n < 256 ^ byteLength n :=
  lt_pow_byteLengthAux n n (Nat.le_refl _)

theorem pow_byteLength_le {n : Nat} (hn : 0 < n) : 256 ^ byteLength n ≤ 256 * n :=
  pow_byteLengthAux_le n n (Nat.le_refl _) hn

theorem byteLength_pos {n : Nat} (hn : 0 < n) : 0 < byteLength n := by
  have h := lt_pow_byteLength n
  rcases Nat.eq_zero_or_pos (byteLength n) with h0 | h0
  · rw [h0] at h
    omega
  · exact h0

/-- A length below `2^64` fits the eight length bytes of a header. -/
theorem byteLength_le_eight {n : Nat} (h : n < 2 ^ 64) : byteLength n ≤ 8 := by
  rcases Nat.eq_zero_or_pos n with rfl | hn
  · decide
  · have hle := pow_byteLength_le hn
    have hlt : 256 ^ byteLength n < 256 ^ 9 := by
      calc 256 ^ byteLength n ≤ 256 * n := hle
        _ < 256 * 2 ^ 64 := by omega
        _ = 256 ^ 9 := by decide
    have := (Nat.pow_lt_pow_iff_right (by decide)).mp hlt
    omega

@[simp] theorem natBytes_length (n : Nat) : (natBytes n).length = byteLength n :=
  beBytes_length _ _

theorem natBytes_lt {n b : Nat} (h : b ∈ natBytes n) : b < 256 := beBytes_lt h

@[simp] theorem beValue_natBytes (n : Nat) : beValue (natBytes n) = n := by
  rw [natBytes, beValue_beBytes, Nat.mod_eq_of_lt (lt_pow_byteLength n)]

/-- The shortest form of a positive number has no leading zero byte. -/
theorem natBytes_headD_ne_zero {n : Nat} (hn : 0 < n) : (natBytes n).headD 0 ≠ 0 := by
  intro hz
  have hlen := natBytes_length n
  have hpos := byteLength_pos hn
  have hval := beValue_natBytes n
  have hle := pow_byteLength_le hn
  obtain ⟨b, rest, hbs⟩ : ∃ b rest, natBytes n = b :: rest := by
    cases hc : natBytes n with
    | nil => rw [hc] at hlen; simp at hlen; omega
    | cons b rest => exact ⟨b, rest, rfl⟩
  rw [hbs] at hz hlen hval
  simp only [List.headD_cons] at hz
  subst hz
  have hbytes : ∀ x ∈ rest, x < 256 := fun x hx => natBytes_lt (hbs ▸ List.mem_cons_of_mem 0 hx)
  have hlt := beValue_lt hbytes
  rw [beValue_cons, Nat.zero_mul, Nat.zero_add] at hval
  simp only [List.length_cons] at hlen
  rw [← hlen, Nat.pow_succ] at hle
  omega

theorem beBytes_add (a b n : Nat) : beBytes (a + b) n = beBytes a (n / 256 ^ b) ++ beBytes b n := by
  induction b generalizing n with
  | zero => simp [beBytes]
  | succ b ih =>
    rw [← Nat.add_assoc, beBytes, ih, beBytes, List.append_assoc, Nat.div_div_eq_div_mul,
      ← Nat.pow_succ']

/-- Only the last `w` bytes of a number reach a field of `w` bytes. -/
theorem beBytes_mod {w k : Nat} (hwk : w ≤ k) (n : Nat) :
    beBytes w (n % 256 ^ k) = beBytes w n := by
  induction w generalizing n k with
  | zero => rfl
  | succ w ih =>
    obtain ⟨k, rfl⟩ : ∃ k', k = k' + 1 := ⟨k - 1, by omega⟩
    rw [beBytes, beBytes, Nat.pow_succ', Nat.mod_mul_right_div_self, ih (by omega),
      Nat.mod_mul_right_mod]

theorem beBytes_zero (w : Nat) : beBytes w 0 = List.replicate w 0 := by
  induction w with
  | zero => rfl
  | succ w ih => rw [beBytes, Nat.zero_div, ih, Nat.zero_mod, List.replicate_succ']

/-- A number below `256 ^ m` has zeros in front of its `m` bytes in a wider field. -/
theorem beBytes_of_lt {m w n : Nat} (hmw : m ≤ w) (hn : n < 256 ^ m) :
    beBytes w n = List.replicate (w - m) 0 ++ beBytes m n := by
  obtain ⟨d, rfl⟩ : ∃ d, w = d + m := ⟨w - m, by omega⟩
  rw [beBytes_add, Nat.div_eq_of_lt hn, beBytes_zero, Nat.add_sub_cancel]

/-- The shortest form of a number below `256 ^ k` has at most `k` bytes. -/
theorem byteLength_le_of_lt_pow {n k : Nat} (h : n < 256 ^ k) : byteLength n ≤ k := by
  rcases Nat.eq_zero_or_pos n with rfl | hn
  · simp [byteLength, byteLengthAux]
  · have hle := pow_byteLength_le hn
    have hlt : 256 ^ byteLength n < 256 ^ (k + 1) := by
      rw [Nat.pow_succ]
      omega
    have := (Nat.pow_lt_pow_iff_right (by decide)).mp hlt
    omega

theorem lt_pow_iff_byteLength_le {n k : Nat} : n < 256 ^ k ↔ byteLength n ≤ k :=
  ⟨byteLength_le_of_lt_pow,
    fun h => lt_of_lt_of_le (lt_pow_byteLength n) (Nat.pow_le_pow_right (by decide) h)⟩

/-! ## Items and their encoding -/

/-- An RLP value: a byte string or a list of values. -/
inductive Item where
  | str (bs : List Nat)
  | list (xs : List Item)
deriving Repr

mutual
/-- Equality of items, decided by structural recursion. -/
def Item.decEq : (a b : Item) → Decidable (a = b)
  | .str x, .str y => if h : x = y then isTrue (h ▸ rfl) else isFalse fun e => h (Item.str.inj e)
  | .str _, .list _ => isFalse nofun
  | .list _, .str _ => isFalse nofun
  | .list xs, .list ys =>
    match Item.decEqList xs ys with
    | isTrue h => isTrue (h ▸ rfl)
    | isFalse h => isFalse fun e => h (Item.list.inj e)
/-- Equality of item lists, decided by structural recursion. -/
def Item.decEqList : (xs ys : List Item) → Decidable (xs = ys)
  | [], [] => isTrue rfl
  | [], _ :: _ => isFalse nofun
  | _ :: _, [] => isFalse nofun
  | x :: xs, y :: ys =>
    match Item.decEq x y, Item.decEqList xs ys with
    | isTrue h, isTrue h' => isTrue (h ▸ h' ▸ rfl)
    | isFalse h, _ => isFalse fun e => h (List.cons.inj e).1
    | _, isFalse h' => isFalse fun e => h' (List.cons.inj e).2
end

instance : DecidableEq Item := Item.decEq

/-- Induction over items: a property of every string, and of every list whose items have it. -/
theorem Item.induction {P : Item → Prop} (str : ∀ bs, P (.str bs))
    (list : ∀ xs, (∀ x ∈ xs, P x) → P (.list xs)) (i : Item) : P i :=
  @Item.rec P (fun xs => ∀ x ∈ xs, P x) str list (fun _ h => absurd h List.not_mem_nil)
    (fun _ _ hx hxs _ hy => (List.mem_cons.mp hy).elim (fun h => h ▸ hx) (hxs _)) i

/-- `puthead`: the header of a string (`offset` `0x80`) or a list (`0xC0`) whose payload has
    `len` bytes. -/
def header (offset len : Nat) : List Nat :=
  if len < 56 then [offset + len] else (offset + 55 + byteLength len) :: natBytes len

/-- `writeBytes`: a single byte below `0x80` is its own encoding. -/
def encodeString (bs : List Nat) : List Nat :=
  if bs.length = 1 ∧ bs.headD 0 < 0x80 then bs else header 0x80 bs.length ++ bs

mutual
/-- The encoding of an item. -/
def Item.encode : Item → List Nat
  | .str bs => encodeString bs
  | .list xs => header 0xC0 (encodeItems xs).length ++ encodeItems xs
/-- The payload of a list: the encodings of its items one after another. -/
def encodeItems : List Item → List Nat
  | [] => []
  | x :: xs => x.encode ++ encodeItems xs
end

example : (Item.list [.str [0x7F], .str [0x80], .str []]).encode = [0xC4, 0x7F, 0x81, 0x80, 0x80] := by
  decide

theorem header_ne_nil (offset len : Nat) : header offset len ≠ [] := by
  unfold header
  split_ifs <;> simp

theorem header_length_le (offset len : Nat) : (header offset len).length ≤ 1 + byteLength len := by
  unfold header
  split_ifs <;> simp [Nat.add_comm]

theorem encodeString_length_le (bs : List Nat) :
    (encodeString bs).length ≤ 1 + byteLength bs.length + bs.length := by
  unfold encodeString
  split_ifs with h
  · omega
  · rw [List.length_append]
    have := header_length_le 0x80 bs.length
    omega

theorem encode_ne_nil (i : Item) : i.encode ≠ [] := by
  cases i with
  | str bs =>
    simp only [Item.encode, encodeString]
    split_ifs with h
    · intro hbs
      simp [hbs] at h
    · simp [header_ne_nil]
  | list xs => simp [Item.encode, header_ne_nil]

@[simp] theorem encodeItems_nil : encodeItems [] = [] := rfl

@[simp] theorem encodeItems_cons (x : Item) (xs : List Item) :
    encodeItems (x :: xs) = x.encode ++ encodeItems xs := rfl

theorem length_le_encodeItems (xs : List Item) : xs.length ≤ (encodeItems xs).length := by
  induction xs with
  | nil => simp
  | cons x xs ih =>
    have := List.length_pos_iff.mpr (encode_ne_nil x)
    simp only [List.length_cons, encodeItems_cons, List.length_append]
    omega

theorem encode_length_le {x : Item} {xs : List Item} (h : x ∈ xs) :
    x.encode.length ≤ (encodeItems xs).length := by
  induction xs with
  | nil => simp at h
  | cons y ys ih =>
    simp only [encodeItems_cons, List.length_append]
    rcases List.mem_cons.mp h with rfl | h
    · omega
    · have := ih h
      omega

/-- The payload of a list is shorter than its encoding. -/
theorem encodeItems_length_lt (xs : List Item) :
    (encodeItems xs).length < (Item.list xs).encode.length := by
  have := List.length_pos_iff.mpr (header_ne_nil 0xC0 (encodeItems xs).length)
  simp only [Item.encode, List.length_append]
  omega

/-! ## Decoding -/

/-- What `readKind` reads: a byte that is its own encoding, or the payload size of a string or
    a list. -/
inductive Kind where
  | byte (b : Nat)
  | string (size : Nat)
  | list (size : Nat)
deriving DecidableEq, Repr

/-- `readUint`: a length of `n` big-endian bytes, refused with a leading zero byte. -/
def readSize (n : Nat) (bs : List Nat) : Option (Nat × List Nat) :=
  if bs.length < n ∨ bs.headD 0 = 0 then none else some (beValue (bs.take n), bs.drop n)

/-- The length of a long header: `readSize`, refused below 56. -/
def readLongSize (n : Nat) (bs : List Nat) : Option (Nat × List Nat) :=
  match readSize n bs with
  | some (size, rest) => if size < 56 then none else some (size, rest)
  | none => none

/-- `Stream.readKind`: the kind of the next value and the input after its header. -/
def readKind : List Nat → Option (Kind × List Nat)
  | [] => none
  | b :: bs =>
    if b < 0x80 then some (.byte b, bs)
    else if b < 0xB8 then some (.string (b - 0x80), bs)
    else if b < 0xC0 then (readLongSize (b - 0xB7) bs).map fun p => (.string p.1, p.2)
    else if b < 0xF8 then some (.list (b - 0xC0), bs)
    else if b < 0x100 then (readLongSize (b - 0xF7) bs).map fun p => (.list p.1, p.2)
    else none

/-- The items of a list payload, one after another until it is used up; `fuel` bounds their
    number. -/
def parseItems (p : List Nat → Option (Item × List Nat)) : Nat → List Nat → Option (List Item)
  | 0, bs => if bs.isEmpty then some [] else none
  | fuel + 1, bs =>
    if bs.isEmpty then some []
    else match p bs with
      | none => none
      | some (x, rest) => (parseItems p fuel rest).map (x :: ·)

/-- One item off the front of the input, and the rest; `fuel` bounds the nesting depth.  A
    string or list larger than the input left (`ErrValueTooLarge`, `ErrElemTooLarge`) is refused,
    and so is a one-byte string below `0x80` (`ErrCanonSize`). -/
def parse : Nat → List Nat → Option (Item × List Nat)
  | 0, _ => none
  | fuel + 1, bs =>
    match readKind bs with
    | none => none
    | some (.byte b, rest) => some (.str [b], rest)
    | some (.string size, rest) =>
      if rest.length < size then none
      else if size = 1 ∧ rest.headD 0 < 0x80 then none
      else some (.str (rest.take size), rest.drop size)
    | some (.list size, rest) =>
      if rest.length < size then none
      else (parseItems (parse fuel) size (rest.take size)).map fun xs => (.list xs, rest.drop size)

/-- `DecodeBytes` at the level of items: one value and no trailing input
    (`ErrMoreThanOneValue`). -/
def decode (bs : List Nat) : Option Item :=
  match parse bs.length bs with
  | some (i, []) => some i
  | _ => none

example : decode [0xC4, 0x7F, 0x81, 0x80, 0x80] = some (.list [.str [0x7F], .str [0x80], .str []]) := by
  decide

example : decode [0x81, 0x7F] = none := by decide

/-! ## The round trip -/

theorem readSize_natBytes {len : Nat} (hlen : 0 < len) (rest : List Nat) :
    readSize (byteLength len) (natBytes len ++ rest) = some (len, rest) := by
  have hne : natBytes len ≠ [] := by
    rw [← List.length_pos_iff, natBytes_length]
    exact byteLength_pos hlen
  have hhead : (natBytes len ++ rest).headD 0 ≠ 0 := by
    rw [headD_append_of_ne_nil rest 0 hne]
    exact natBytes_headD_ne_zero hlen
  unfold readSize
  rw [if_neg (not_or.mpr ⟨by simp, hhead⟩), List.take_left' (natBytes_length len),
    List.drop_left' (natBytes_length len), beValue_natBytes]

theorem readLongSize_natBytes {len : Nat} (hlen : 56 ≤ len) (rest : List Nat) :
    readLongSize (byteLength len) (natBytes len ++ rest) = some (len, rest) := by
  simp [readLongSize, readSize_natBytes (show 0 < len by omega), show ¬ len < 56 by omega]

theorem readKind_string_header {len : Nat} (hlen : len < 2 ^ 64) (rest : List Nat) :
    readKind (header 0x80 len ++ rest) = some (.string len, rest) := by
  unfold header
  by_cases hs : len < 56
  · simp only [if_pos hs, List.singleton_append, readKind]
    simp [show ¬ 0x80 + len < 0x80 by omega, show 0x80 + len < 0xB8 by omega]
  · have h8 := byteLength_le_eight hlen
    have h1 := byteLength_pos (show 0 < len by omega)
    simp only [if_neg hs, List.cons_append, readKind]
    simp [show ¬ 0x80 + 55 + byteLength len < 0x80 by omega,
      show ¬ 0x80 + 55 + byteLength len < 0xB8 by omega,
      show 0x80 + 55 + byteLength len < 0xC0 by omega,
      show 0x80 + 55 + byteLength len - 0xB7 = byteLength len by omega,
      readLongSize_natBytes (show 56 ≤ len by omega)]

theorem readKind_list_header {len : Nat} (hlen : len < 2 ^ 64) (rest : List Nat) :
    readKind (header 0xC0 len ++ rest) = some (.list len, rest) := by
  unfold header
  by_cases hs : len < 56
  · simp only [if_pos hs, List.singleton_append, readKind]
    simp [show ¬ 0xC0 + len < 0x80 by omega, show ¬ 0xC0 + len < 0xB8 by omega,
      show ¬ 0xC0 + len < 0xC0 by omega, show 0xC0 + len < 0xF8 by omega]
  · have h8 := byteLength_le_eight hlen
    have h1 := byteLength_pos (show 0 < len by omega)
    simp only [if_neg hs, List.cons_append, readKind]
    simp [show ¬ 0xC0 + 55 + byteLength len < 0x80 by omega,
      show ¬ 0xC0 + 55 + byteLength len < 0xB8 by omega,
      show ¬ 0xC0 + 55 + byteLength len < 0xC0 by omega,
      show ¬ 0xC0 + 55 + byteLength len < 0xF8 by omega,
      show 0xC0 + 55 + byteLength len < 0x100 by omega,
      show 0xC0 + 55 + byteLength len - 0xF7 = byteLength len by omega,
      readLongSize_natBytes (show 56 ≤ len by omega)]

theorem parse_encodeString (fuel : Nat) {bs : List Nat} (hlen : bs.length < 2 ^ 64)
    (rest : List Nat) : parse (fuel + 1) (encodeString bs ++ rest) = some (.str bs, rest) := by
  unfold encodeString
  by_cases hsingle : bs.length = 1 ∧ bs.headD 0 < 0x80
  · -- a single byte below `0x80` stands for itself
    obtain ⟨b, rfl⟩ : ∃ b, bs = [b] := List.length_eq_one_iff.mp hsingle.1
    simp only [List.headD_cons] at hsingle
    simp [parse, readKind, hsingle.2]
  · rw [if_neg hsingle, List.append_assoc]
    have hcanon : ¬ (bs.length = 1 ∧ (bs ++ rest).headD 0 < 0x80) := by
      rintro ⟨h1, h2⟩
      rw [headD_append_of_ne_nil rest 0 (List.ne_nil_of_length_pos (by omega))] at h2
      exact hsingle ⟨h1, h2⟩
    simp only [parse, readKind_string_header hlen]
    rw [if_neg (by simp), if_neg hcanon, List.take_left' rfl, List.drop_left' rfl]

theorem parseItems_encodeItems {p : List Nat → Option (Item × List Nat)} {xs : List Item}
    (hp : ∀ x ∈ xs, ∀ rest, p (x.encode ++ rest) = some (x, rest)) :
    ∀ k, xs.length ≤ k → parseItems p k (encodeItems xs) = some xs := by
  induction xs with
  | nil =>
    intro k _
    cases k <;> simp [parseItems]
  | cons x xs ih =>
    intro k hk
    obtain ⟨k, rfl⟩ : ∃ k', k = k' + 1 := ⟨k - 1, by simp at hk; omega⟩
    have hne : encodeItems (x :: xs) ≠ [] := by simp [encode_ne_nil]
    have hrest := ih (fun y hy => hp y (List.mem_cons_of_mem x hy)) k (by simp at hk; omega)
    rw [parseItems, if_neg (by simpa using hne), encodeItems_cons, hp x List.mem_cons_self]
    simp [hrest]

/-- Decoding an item's encoding, followed by anything, gives back the item and what follows,
    with fuel at least the encoding's length. -/
theorem parse_encode (i : Item) :
    ∀ fuel rest, i.encode.length ≤ fuel → i.encode.length < 2 ^ 64 →
      parse fuel (i.encode ++ rest) = some (i, rest) := by
  induction i using Item.induction with
  | str bs =>
    intro fuel rest hfuel hlen
    obtain ⟨f, rfl⟩ : ∃ f, fuel = f + 1 :=
      ⟨fuel - 1, by have := List.length_pos_iff.mpr (encode_ne_nil (.str bs)); omega⟩
    have hbs : bs.length < 2 ^ 64 := by
      have : bs.length ≤ (Item.str bs).encode.length := by
        simp only [Item.encode, encodeString]
        split_ifs <;> simp
      omega
    exact parse_encodeString f hbs rest
  | list xs ih =>
    -- the items lie inside the payload, so the fuel left after the header covers each of them
    intro fuel rest hfuel hlen
    have hpay := encodeItems_length_lt xs
    obtain ⟨f, rfl⟩ : ∃ f, fuel = f + 1 := ⟨fuel - 1, by omega⟩
    have hitems : ∀ x ∈ xs, ∀ r, parse f (x.encode ++ r) = some (x, r) := fun x hx r =>
      ih x hx f r (by have := encode_length_le hx; omega) (by have := encode_length_le hx; omega)
    simp only [Item.encode, List.append_assoc, parse,
      readKind_list_header (show (encodeItems xs).length < 2 ^ 64 by omega)]
    rw [if_neg (by simp), List.take_left' rfl, List.drop_left' rfl,
      parseItems_encodeItems hitems _ (length_le_encodeItems xs)]
    rfl

/-- `DecodeBytes` of an item's encoding gives back the item. -/
theorem decode_encode (i : Item) (hlen : i.encode.length < 2 ^ 64) : decode i.encode = some i := by
  have h := parse_encode i i.encode.length [] (Nat.le_refl _) hlen
  rw [List.append_nil] at h
  simp [decode, h]

/-! ## Canonical input

On input made of bytes, decoding succeeds only on canonical encodings: what `parse` reads is the
encoding of the item it returns (`parse_canonical`), so `decode` inverts `Item.encode` on byte
strings and only there. -/

/-- Byte strings of one length with one big-endian value are equal. -/
theorem beValue_injective : ∀ {bs cs : List Nat}, bs.length = cs.length →
    (∀ x ∈ bs, x < 256) → (∀ x ∈ cs, x < 256) → beValue bs = beValue cs → bs = cs
  | [], [], _, _, _, _ => rfl
  | [], _ :: _, hlen, _, _, _ => by simp at hlen
  | _ :: _, [], hlen, _, _, _ => by simp at hlen
  | b :: bs, c :: cs, hlen, hb, hc, hv => by
    have hlen' : bs.length = cs.length := by simpa using hlen
    have hbs := beValue_lt fun x hx => hb x (List.mem_cons_of_mem b hx)
    have hcs := beValue_lt fun x hx => hc x (List.mem_cons_of_mem c hx)
    rw [beValue_cons, beValue_cons, hlen'] at hv
    rw [hlen'] at hbs
    -- the first byte is the quotient by the weight of the rest, the rest is the remainder
    have hpos : 0 < 256 ^ cs.length := Nat.pow_pos (by decide)
    have hfirst : b = c := by
      have h₁ : (b * 256 ^ cs.length + beValue bs) / 256 ^ cs.length = b := by
        rw [Nat.add_comm, Nat.add_mul_div_right _ _ hpos, Nat.div_eq_of_lt hbs, Nat.zero_add]
      have h₂ : (c * 256 ^ cs.length + beValue cs) / 256 ^ cs.length = c := by
        rw [Nat.add_comm, Nat.add_mul_div_right _ _ hpos, Nat.div_eq_of_lt hcs, Nat.zero_add]
      rw [← h₁, ← h₂, hv]
    subst hfirst
    rw [beValue_injective hlen' (fun x hx => hb x (List.mem_cons_of_mem b hx))
      (fun x hx => hc x (List.mem_cons_of_mem b hx)) (Nat.add_left_cancel hv)]

/-- A byte string without a leading zero byte is the shortest form of its value. -/
theorem natBytes_beValue {bs : List Nat} (hb : ∀ x ∈ bs, x < 256) (hhead : bs.headD 0 ≠ 0) :
    natBytes (beValue bs) = bs := by
  obtain ⟨b, rest, rfl⟩ : ∃ b rest, bs = b :: rest := by
    cases bs with
    | nil => exact absurd rfl hhead
    | cons b rest => exact ⟨b, rest, rfl⟩
  simp only [List.headD_cons] at hhead
  -- the value lies in `[256 ^ (n - 1), 256 ^ n)` for a string of `n` bytes
  have hlo : 256 ^ rest.length ≤ beValue (b :: rest) := by
    have : 256 ^ rest.length ≤ b * 256 ^ rest.length := Nat.le_mul_of_pos_left _ (by omega)
    rw [beValue_cons]
    omega
  have hhi := beValue_lt hb
  have hpos : 0 < beValue (b :: rest) := lt_of_lt_of_le (Nat.pow_pos (by decide)) hlo
  have hlen : byteLength (beValue (b :: rest)) = (b :: rest).length := by
    have hge : rest.length < byteLength (beValue (b :: rest)) :=
      (Nat.pow_lt_pow_iff_right (by decide)).mp (lt_of_le_of_lt hlo (lt_pow_byteLength _))
    have hle : byteLength (beValue (b :: rest)) < (b :: rest).length + 1 := by
      apply (Nat.pow_lt_pow_iff_right (by decide : 1 < 256)).mp
      calc 256 ^ byteLength (beValue (b :: rest)) ≤ 256 * beValue (b :: rest) :=
            pow_byteLength_le hpos
        _ < 256 * 256 ^ (b :: rest).length := by omega
        _ = 256 ^ ((b :: rest).length + 1) := by rw [Nat.pow_succ, Nat.mul_comm]
    simp only [List.length_cons] at hge hle ⊢
    omega
  apply beValue_injective
  · rw [natBytes_length, hlen]
  · exact fun x hx => natBytes_lt hx
  · exact hb
  · rw [beValue_natBytes]

theorem readSize_canonical {n size : Nat} {bs rest : List Nat} (hn : 0 < n)
    (hb : ∀ x ∈ bs, x < 256) (h : readSize n bs = some (size, rest)) :
    bs = natBytes size ++ rest ∧ byteLength size = n := by
  unfold readSize at h
  split_ifs at h with hbad
  simp only [Option.some.injEq, Prod.mk.injEq] at h
  obtain ⟨rfl, rfl⟩ := h
  have hlen : (bs.take n).length = n := by
    rw [List.length_take]
    omega
  have hhead : (bs.take n).headD 0 ≠ 0 := by
    obtain ⟨m, rfl⟩ : ∃ m, n = m + 1 := ⟨n - 1, by omega⟩
    cases bs with
    | nil => simp at hbad
    | cons b bs => simpa using (not_or.mp hbad).2
  have htake := natBytes_beValue (fun x hx => hb x (List.mem_of_mem_take hx)) hhead
  refine ⟨by rw [htake, List.take_append_drop], ?_⟩
  rw [← natBytes_length, htake, hlen]

theorem readLongSize_canonical {n size : Nat} {bs rest : List Nat} (hn : 0 < n)
    (hb : ∀ x ∈ bs, x < 256) (h : readLongSize n bs = some (size, rest)) :
    56 ≤ size ∧ bs = natBytes size ++ rest ∧ byteLength size = n := by
  unfold readLongSize at h
  split at h
  · rename_i size' rest' hsize
    split_ifs at h with hsmall
    simp only [Option.some.injEq, Prod.mk.injEq] at h
    obtain ⟨rfl, rfl⟩ := h
    exact ⟨by omega, readSize_canonical hn hb hsize⟩
  · cases h

/-- A long header: its first byte, `offset + 55` and the length of the size, then the size that
    `readLongSize` reads. -/
theorem header_of_readLongSize {offset b n size : Nat} {bs rest : List Nat} (hn : 0 < n)
    (hb : ∀ x ∈ bs, x < 256) (hoff : b = offset + 55 + n)
    (h : readLongSize n bs = some (size, rest)) : b :: bs = header offset size ++ rest := by
  obtain ⟨h56, hbs, hlen⟩ := readLongSize_canonical hn hb h
  simp only [header, if_neg (show ¬ size < 56 by omega), hbs, hlen, List.cons_append,
    List.cons.injEq, and_true]
  exact hoff

/-- The bytes of a header of the kind `readKind` reads. -/
def Kind.headerBytes : Kind → List Nat
  | .byte b => [b]
  | .string size => header 0x80 size
  | .list size => header 0xC0 size

/-- What `readKind` reads of bytes is the header of the kind it returns. -/
theorem readKind_canonical {bs rest : List Nat} {k : Kind} (hb : ∀ x ∈ bs, x < 256)
    (h : readKind bs = some (k, rest)) : bs = k.headerBytes ++ rest := by
  cases bs with
  | nil => simp [readKind] at h
  | cons b bs =>
    have hb0 : b < 256 := hb b List.mem_cons_self
    have hbs : ∀ x ∈ bs, x < 256 := fun x hx => hb x (List.mem_cons_of_mem b hx)
    simp only [readKind] at h
    split_ifs at h with h₁ h₂ h₃ h₄
    · simp only [Option.some.injEq, Prod.mk.injEq] at h
      obtain ⟨rfl, rfl⟩ := h
      rfl
    · simp only [Option.some.injEq, Prod.mk.injEq] at h
      obtain ⟨rfl, rfl⟩ := h
      simp only [Kind.headerBytes, header, if_pos (show b - 0x80 < 56 by omega), List.singleton_append,
        List.cons.injEq, and_true]
      omega
    · obtain ⟨⟨size, rest'⟩, hr, he⟩ := Option.map_eq_some_iff.mp h
      simp only [Prod.mk.injEq] at he
      obtain ⟨rfl, rfl⟩ := he
      exact header_of_readLongSize (by omega) hbs (by omega) hr
    · simp only [Option.some.injEq, Prod.mk.injEq] at h
      obtain ⟨rfl, rfl⟩ := h
      simp only [Kind.headerBytes, header, if_pos (show b - 0xC0 < 56 by omega), List.singleton_append,
        List.cons.injEq, and_true]
      omega
    · obtain ⟨⟨size, rest'⟩, hr, he⟩ := Option.map_eq_some_iff.mp h
      simp only [Prod.mk.injEq] at he
      obtain ⟨rfl, rfl⟩ := he
      exact header_of_readLongSize (by omega) hbs (by omega) hr

theorem readKind_byte {bs rest : List Nat} {b : Nat} (h : readKind bs = some (.byte b, rest)) :
    b < 0x80 := by
  cases bs with
  | nil => simp [readKind] at h
  | cons c bs =>
    simp only [readKind] at h
    split_ifs at h with h₁ <;> simp_all

theorem parseItems_canonical {p : List Nat → Option (Item × List Nat)}
    (hp : ∀ bs t rest, (∀ x ∈ bs, x < 256) → p bs = some (t, rest) → bs = t.encode ++ rest) :
    ∀ (k : Nat) {bs : List Nat} {xs : List Item}, (∀ x ∈ bs, x < 256) →
      parseItems p k bs = some xs → bs = encodeItems xs
  | 0, bs, xs, _, h => by
    unfold parseItems at h
    split_ifs at h with he
    simp only [Option.some.injEq] at h
    subst h
    simpa using he
  | k + 1, bs, xs, hb, h => by
    unfold parseItems at h
    split_ifs at h with he
    · simp only [Option.some.injEq] at h
      subst h
      simpa using he
    · split at h
      · cases h
      · rename_i x rest hpx
        obtain ⟨xs', hxs', rfl⟩ := Option.map_eq_some_iff.mp h
        have hfirst := hp bs x rest hb hpx
        have hrest : ∀ y ∈ rest, y < 256 := fun y hy => hb y (hfirst ▸ List.mem_append_right _ hy)
        rw [hfirst, parseItems_canonical hp k hrest hxs', encodeItems_cons]

/-- What `parse` reads of bytes is the encoding of the item it returns. -/
theorem parse_canonical : ∀ (fuel : Nat) {bs rest : List Nat} {t : Item},
    (∀ x ∈ bs, x < 256) → parse fuel bs = some (t, rest) → bs = t.encode ++ rest
  | 0, _, _, _, _, h => by simp [parse] at h
  | fuel + 1, bs, rest, t, hb, h => by
    unfold parse at h
    split at h
    · cases h
    · rename_i b rest' hk
      simp only [Option.some.injEq, Prod.mk.injEq] at h
      obtain ⟨rfl, rfl⟩ := h
      have hb' := readKind_byte hk
      rw [readKind_canonical hb hk]
      simp [Kind.headerBytes, Item.encode, encodeString, hb']
    · rename_i size rest' hk
      split_ifs at h with hshort hsingle
      simp only [Option.some.injEq, Prod.mk.injEq] at h
      obtain ⟨rfl, rfl⟩ := h
      have hlen : (rest'.take size).length = size := by
        rw [List.length_take]
        omega
      -- a string read with a header is not a single byte below `0x80`
      have hnot : ¬ ((rest'.take size).length = 1 ∧ (rest'.take size).headD 0 < 0x80) := by
        rintro ⟨h1, h2⟩
        rw [hlen] at h1
        subst h1
        cases rest' with
        | nil => simp at hshort
        | cons c cs => exact hsingle ⟨rfl, by simpa using h2⟩
      rw [readKind_canonical hb hk]
      simp only [Kind.headerBytes, Item.encode]
      rw [encodeString, if_neg hnot, hlen, List.append_assoc, List.take_append_drop]
    · rename_i size rest' hk
      split_ifs at h with hshort
      obtain ⟨xs, hxs, he⟩ := Option.map_eq_some_iff.mp h
      simp only [Prod.mk.injEq] at he
      obtain ⟨rfl, rfl⟩ := he
      have hbytes : ∀ x ∈ rest', x < 256 := fun x hx =>
        hb x (readKind_canonical hb hk ▸ List.mem_append_right _ hx)
      have hpay := parseItems_canonical (fun bs t r hb h => parse_canonical fuel hb h) size
        (fun x hx => hbytes x (List.mem_of_mem_take hx)) hxs
      have hlen : (encodeItems xs).length = size := by
        rw [← hpay, List.length_take]
        omega
      rw [readKind_canonical hb hk]
      simp only [Kind.headerBytes, Item.encode]
      rw [hlen, ← hpay, List.append_assoc, List.take_append_drop]

/-- `DecodeBytes` accepts a byte string only if it is the encoding of the item it returns. -/
theorem decode_canonical {bs : List Nat} {t : Item} (hb : ∀ x ∈ bs, x < 256)
    (h : decode bs = some t) : bs = t.encode := by
  unfold decode at h
  split at h
  · rename_i t' hp
    simp only [Option.some.injEq] at h
    subst h
    simpa using parse_canonical bs.length hb hp
  · cases h

/-! ## Typed fields

A Go struct is encoded as the list of its fields' items.  Its leaves are byte slices, unsigned and
big integers, and byte arrays of fixed width; numbers are big-endian.  The decoders take the checks
of `decodeByteSlice`, `Stream.uint`, `decodeBigInt` and `decodeByteArray`; an element of 256 or
more is not a byte and never reads as a number. -/

/-- The item of a number: its shortest big-endian form. -/
def Item.num (n : Nat) : Item := .str (natBytes n)

/-- The item of a `[w]byte` array holding `n` big-endian. -/
def Item.fixed (w n : Nat) : Item := .str (beBytes w n)

/-- `decodeByteSlice`: the bytes of a string. -/
def Item.bytes? : Item → Option (List Nat)
  | .str bs => some bs
  | .list _ => none

/-- `decodeBigInt`: a string of bytes without a leading zero byte (`ErrCanonInt`). -/
def Item.bigInt? : Item → Option Nat
  | .str bs => if bs.head? = some 0 ∨ ¬ bs.all (· < 256) then none else some (beValue bs)
  | .list _ => none

/-- `Stream.uint(64)`: a big integer of at most eight bytes (`errUintOverflow`). -/
def Item.uint? (i : Item) : Option Nat :=
  match i with
  | .str bs => if 8 < bs.length then none else i.bigInt?
  | .list _ => none

/-- `decodeByteArray` into a `[w]byte` read big-endian: a string of exactly `w` bytes. -/
def Item.fixed? (w : Nat) : Item → Option Nat
  | .str bs => if bs.length = w ∧ bs.all (· < 256) then some (beValue bs) else none
  | .list _ => none

@[simp] theorem bytes?_str (bs : List Nat) : (Item.str bs).bytes? = some bs := rfl

@[simp] theorem bigInt?_num (n : Nat) : (Item.num n).bigInt? = some n := by
  have hall : (natBytes n).all (· < 256) = true := by
    simp only [List.all_eq_true, decide_eq_true_eq]
    exact fun b hb => natBytes_lt hb
  have hlead : (natBytes n).head? ≠ some 0 := by
    rcases Nat.eq_zero_or_pos n with rfl | hn
    · decide
    · intro h
      exact natBytes_headD_ne_zero hn (by simp [List.headD_eq_head?_getD, h])
  simp [Item.num, Item.bigInt?, hall, hlead]

@[simp] theorem uint?_num {n : Nat} (h : n < 2 ^ 64) : (Item.num n).uint? = some n := by
  have h8 := byteLength_le_eight h
  simp only [Item.uint?, Item.num, natBytes_length, if_neg (show ¬ 8 < byteLength n by omega)]
  exact bigInt?_num n

@[simp] theorem fixed?_fixed {w n : Nat} (h : n < 256 ^ w) : (Item.fixed w n).fixed? w = some n := by
  have hall : (beBytes w n).all (· < 256) = true := by
    simp only [List.all_eq_true, decide_eq_true_eq]
    exact fun b hb => beBytes_lt hb
  simp [Item.fixed, Item.fixed?, hall, beValue_beBytes, Nat.mod_eq_of_lt h]

/-- `decodeByteArray` into a `[w]byte`, its big-endian value kept in range. -/
def Item.array? (w : Nat) : Item → Option (Fin (256 ^ w))
  | .str bs =>
    if h : bs.length = w ∧ bs.all (· < 256) then
      some ⟨beValue bs, h.1 ▸ beValue_lt (by simpa using h.2)⟩
    else none
  | .list _ => none

/-- `Stream.uint(64)` into a `uint64`. -/
def Item.uint64? (i : Item) : Option UInt64 := i.uint?.map UInt64.ofNat

/-- `decodeListSlice`: a list whose items all decode. -/
def Item.list? {α : Type} (dec : Item → Option α) : Item → Option (List α)
  | .list xs => xs.mapM dec
  | .str _ => none

@[simp] theorem array?_fixed {w : Nat} (n : Fin (256 ^ w)) :
    (Item.fixed w n).array? w = some n := by
  have hall : (beBytes w n).all (· < 256) = true := by
    simp only [List.all_eq_true, decide_eq_true_eq]
    exact fun b hb => beBytes_lt hb
  simp [Item.fixed, Item.array?, hall, beValue_beBytes, Nat.mod_eq_of_lt n.isLt]

@[simp] theorem uint64?_num (x : UInt64) : (Item.num x.toNat).uint64? = some x := by
  simp [Item.uint64?, uint?_num x.toNat_lt]

theorem list?_list {α : Type} {dec : Item → Option α} {f : α → Item}
    (h : ∀ a, dec (f a) = some a) (as : List α) : (Item.list (as.map f)).list? dec = some as := by
  induction as with
  | nil => rfl
  | cons a as ih =>
    simp only [Item.list?, List.map_cons, List.mapM_cons, h a] at ih ⊢
    rw [ih]
    rfl

/-- The shortest form of a number is empty only for zero. -/
theorem num_ne_nil {n : Nat} (hn : n ≠ 0) : Item.num n ≠ .str [] := by
  intro h
  have hlen := natBytes_length n
  rw [Item.str.inj h] at hlen
  have := byteLength_pos (Nat.pos_of_ne_zero hn)
  simp at hlen
  omega

theorem fixed_ne_nil {w : Nat} (hw : w ≠ 0) (n : Nat) : Item.fixed w n ≠ .str [] := by
  intro h
  have hlen := beBytes_length w n
  rw [Item.str.inj h] at hlen
  exact hw hlen.symm

/-! ## Pointers

A pointer field tagged ``rlp:"nil"`` is written as the empty value of its kind when nil
(`makePtrWriter`) and read back as nil from that empty value (`makeNilPtrDecoder`); the empty
value of the other kind is an error.  An element whose own form is empty (the number zero, an
empty string) therefore comes back as nil. -/

/-- The kind of empty value a nil pointer stands for. -/
inductive NilKind where
  | string
  | list
deriving DecidableEq, Repr

/-- The empty value of a kind. -/
def NilKind.item : NilKind → Item
  | .string => .str []
  | .list => .list []

/-- `makePtrWriter`: a nil pointer is the empty value of its kind. -/
def Item.ofPtr {α : Type} (k : NilKind) (f : α → Item) : Option α → Item
  | none => k.item
  | some a => f a

/-- `makeNilPtrDecoder`: an empty value of the pointer's kind is nil, one of the other kind an
error; any other value is decoded into the element. -/
def Item.ptr? {α : Type} (k : NilKind) (dec : Item → Option α) : Item → Option (Option α)
  | .str [] => if k = .string then some none else none
  | .list [] => if k = .list then some none else none
  | i => (dec i).map some

@[simp] theorem ptr?_item {α : Type} (k : NilKind) (dec : Item → Option α) :
    k.item.ptr? k dec = some none := by
  cases k <;> rfl

theorem ptr?_of_ne {α : Type} {k : NilKind} {dec : Item → Option α} {i : Item}
    (hs : i ≠ .str []) (hl : i ≠ .list []) : i.ptr? k dec = (dec i).map some := by
  unfold Item.ptr?
  split
  · exact absurd rfl hs
  · exact absurd rfl hl
  · rfl

/-- A pointer round-trips when its element does and the element's form is not empty. -/
theorem ptr?_ofPtr {α : Type} {k : NilKind} {dec : Item → Option α} {f : α → Item}
    {p : Option α} (h : ∀ a ∈ p, dec (f a) = some a ∧ f a ≠ .str [] ∧ f a ≠ .list []) :
    (Item.ofPtr k f p).ptr? k dec = some p := by
  cases p with
  | none => exact ptr?_item k dec
  | some a =>
    obtain ⟨hdec, hs, hl⟩ := h a rfl
    rw [Item.ofPtr, ptr?_of_ne hs hl, hdec]
    rfl

/-- `DecodeBytes` into a typed value: the item, then the type's decoder. -/
def decodeAs {α : Type} (f : Item → Option α) (bs : List Nat) : Option α := (decode bs).bind f

theorem decodeAs_encode {α : Type} {f : Item → Option α} {i : Item} {a : α}
    (hlen : i.encode.length < 2 ^ 64) (hf : f i = some a) : decodeAs f i.encode = some a := by
  rw [decodeAs, decode_encode i hlen, Option.bind_some, hf]

/-- A type's RLP form: its item, the decoding back, and that decoding inverts encoding. -/
structure Codec (α : Type) where
  toItem : α → Item
  ofItem : Item → Option α
  ofItem_toItem : ∀ a, ofItem (toItem a) = some a

end QuorumHotstuff.Lib.Rlp
