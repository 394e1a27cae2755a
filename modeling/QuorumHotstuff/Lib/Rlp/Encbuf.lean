import QuorumHotstuff.Lib.Rlp

/-!
# The encoder's buffer

`encbuf` of `rlp/encode.go`.  `EncodeToBytes` writes a value into one buffer without knowing a
list's size before its items are written.  String data goes to `str`.  A list leaves a `listhead`
recording where in `str` its data starts; `listEnd` then stores the size of its payload, list
headers included, which it counts through `lhsize`, the total size of the headers closed so far.
`toBytes` splices each header into the string data at its offset.  A tree of byte slices and
`[]interface{}` slices is written by `writeBytes`, which is `encodeString`, and by the slice writer
of `makeSliceWriter`, which brackets the items with `list` and `listEnd`.

Writing a tree appends its string data, its list headers in the order its lists open, and the size
of those headers (`writeItem_eq`).  Splicing the headers back in front of their payloads rebuilds
the encoding (`foldl_spliceHead_heads`), so `EncodeToBytes` returns `Item.encode`
(`encodeToBytes_eq`).  Sizes are natural numbers: Go's `int` sizes are those below `2^63`, where
the conversions to `uint64` are the identity.
-/

namespace QuorumHotstuff.Lib.Rlp

/-! ## The buffer -/

/-- The loop of `intsize`, in at most `fuel` rounds. -/
def intsizeAux : Nat → Nat → Nat
  | 0, _ => 1
  | fuel + 1, i => if i / 256 = 0 then 1 else intsizeAux fuel (i / 256) + 1

/-- `intsize`: the number of bytes `i` takes big-endian, at least one. -/
def intsize (i : Nat) : Nat := intsizeAux i i

/-- `putint`: `i` big-endian in `intsize i` bytes. -/
def putint (i : Nat) : List Nat := beBytes (intsize i) i

/-- `puthead`: the header of a payload of `size` bytes, with the tags of a string or a list. -/
def puthead (smalltag largetag size : Nat) : List Nat :=
  if size < 56 then [smalltag + size] else (largetag + (putint size).length) :: putint size

/-- `listhead`: where a list's data starts in `str`, and its size.  Until `listEnd` runs, the size
    is the `lhsize` at `list`. -/
structure ListHead where
  offset : Nat
  size : Nat
deriving DecidableEq, Repr

/-- `listhead.encode`. -/
def ListHead.encode (head : ListHead) : List Nat := puthead 0xC0 0xF7 head.size

/-- `encbuf`: the string data, the list headers, and the total size of the headers closed. -/
structure Encbuf where
  str : List Nat
  lheads : List ListHead
  lhsize : Nat
deriving DecidableEq, Repr

namespace Encbuf

/-- The buffer after `reset`. -/
def empty : Encbuf := ⟨[], [], 0⟩

/-- `size`: the size of the output, headers included. -/
def size (w : Encbuf) : Nat := w.str.length + w.lhsize

/-- `encodeStringHeader`. -/
def encodeStringHeader (w : Encbuf) (size : Nat) : Encbuf :=
  if size < 56 then { w with str := w.str ++ [0x80 + size] }
  else { w with str := w.str ++ (0xB7 + (putint size).length) :: putint size }

/-- `encodeString`: a single byte up to `0x7F` without a header. -/
def encodeString (w : Encbuf) (b : List Nat) : Encbuf :=
  if b.length = 1 ∧ b.headD 0 ≤ 0x7F then { w with str := w.str ++ b }
  else
    let w := w.encodeStringHeader b.length
    { w with str := w.str ++ b }

/-- `list`: a new header at the end of the string data, and its index. -/
def list (w : Encbuf) : Encbuf × Nat :=
  ({ w with lheads := w.lheads ++ [⟨w.str.length, w.lhsize⟩] }, w.lheads.length)

/-- `listEnd`: the payload is everything written since `list`, headers closed since included.
    An index out of range panics. -/
def listEnd (w : Encbuf) (index : Nat) : Option Encbuf :=
  match w.lheads[index]? with
  | none => none
  | some lh =>
    let size := w.size - lh.offset - lh.size
    some { w with
      lheads := w.lheads.set index { lh with size := size }
      lhsize := if size < 56 then w.lhsize + 1 else w.lhsize + 1 + intsize size }

/-- One round of the loop of `toBytes`: the string data up to the header's offset, then the
    header. -/
def spliceHead (str : List Nat) (acc : List Nat × Nat) (head : ListHead) : List Nat × Nat :=
  let data := (str.drop acc.2).take (head.offset - acc.2)
  (acc.1 ++ data ++ head.encode, acc.2 + data.length)

/-- `toBytes`: the headers spliced into the string data, then the data after the last one. -/
def toBytes (w : Encbuf) : List Nat :=
  let (out, strpos) := w.lheads.foldl (spliceHead w.str) ([], 0)
  out ++ w.str.drop strpos

end Encbuf

mutual
/-- The writer `cachedWriter` picks for a tree: `writeBytes` for a byte slice, and for a slice the
    writer of `makeSliceWriter`, which runs `listEnd` on the index `list` returned once the items
    are written. -/
def writeItem : Encbuf → Item → Option Encbuf
  | w, .str bs => some (w.encodeString bs)
  | w, .list xs =>
    let (w, index) := w.list
    (writeItems w xs).bind (·.listEnd index)
/-- The items of a slice, one after another. -/
def writeItems : Encbuf → List Item → Option Encbuf
  | w, [] => some w
  | w, x :: xs => (writeItem w x).bind (writeItems · xs)
end

/-- `EncodeToBytes` of a tree: `reset`, the writer, `toBytes`. -/
def encodeToBytes (t : Item) : Option (List Nat) := (writeItem .empty t).map Encbuf.toBytes

/-! ## Headers -/

theorem intsizeAux_eq (fuel n : Nat) (hn : 0 < n) (h : n ≤ fuel) :
    intsizeAux fuel n = byteLengthAux fuel n := by
  induction fuel generalizing n with
  | zero => omega
  | succ fuel ih =>
    rw [intsizeAux, byteLengthAux, if_neg (show ¬ n = 0 by omega)]
    by_cases hq : n / 256 = 0
    · rw [if_pos hq, hq]
      cases fuel <;> rfl
    · rw [if_neg hq, ih (n / 256) (by omega) (by omega)]

theorem intsize_eq_byteLength {n : Nat} (hn : 0 < n) : intsize n = byteLength n :=
  intsizeAux_eq n n hn (Nat.le_refl n)

theorem putint_eq_natBytes {n : Nat} (hn : 0 < n) : putint n = natBytes n := by
  rw [putint, intsize_eq_byteLength hn, natBytes]

/-- `puthead` writes the header of `Lib.Rlp`. -/
theorem puthead_eq_header (offset size : Nat) :
    puthead offset (offset + 55) size = header offset size := by
  unfold puthead header
  split_ifs with hs
  · rfl
  · rw [putint_eq_natBytes (by omega), natBytes_length]

theorem ListHead.encode_eq (head : ListHead) : head.encode = header 0xC0 head.size :=
  puthead_eq_header 0xC0 head.size

theorem header_length (offset size : Nat) :
    (header offset size).length = if size < 56 then 1 else 1 + intsize size := by
  unfold header
  split_ifs with hs
  · rfl
  · rw [intsize_eq_byteLength (by omega), List.length_cons, natBytes_length]
    omega

namespace Encbuf

theorem encodeStringHeader_eq (w : Encbuf) (size : Nat) :
    w.encodeStringHeader size = { w with str := w.str ++ header 0x80 size } := by
  unfold encodeStringHeader header
  split_ifs with hs
  · rfl
  · rw [putint_eq_natBytes (by omega), natBytes_length]

/-- `encbuf.encodeString` appends the encoding of `Lib.Rlp`. -/
theorem encodeString_eq (w : Encbuf) (b : List Nat) :
    w.encodeString b = { w with str := w.str ++ Rlp.encodeString b } := by
  unfold encodeString Rlp.encodeString
  by_cases hsingle : b.length = 1 ∧ b.headD 0 < 0x80
  · rw [if_pos ⟨hsingle.1, by omega⟩, if_pos hsingle]
  · rw [if_neg (fun h => hsingle ⟨h.1, by omega⟩), if_neg hsingle, encodeStringHeader_eq]
    simp

end Encbuf

/-! ## What writing a tree leaves in the buffer -/

mutual
/-- The string data of a tree: its encoding without the list headers. -/
def strData : Item → List Nat
  | .str bs => encodeString bs
  | .list xs => strDataItems xs
/-- The string data of the items of a list. -/
def strDataItems : List Item → List Nat
  | [] => []
  | x :: xs => strData x ++ strDataItems xs
end

mutual
/-- The number of bytes of the list headers of a tree. -/
def headBytes : Item → Nat
  | .str _ => 0
  | .list xs => (header 0xC0 (encodeItems xs).length).length + headBytesItems xs
/-- The number of bytes of the list headers of the items of a list. -/
def headBytesItems : List Item → Nat
  | [] => 0
  | x :: xs => headBytes x + headBytesItems xs
end

mutual
/-- The closed list heads of a tree whose string data starts at offset `o`, in the order its lists
    open. -/
def heads : Item → Nat → List ListHead
  | .str _, _ => []
  | .list xs, o => ⟨o, (encodeItems xs).length⟩ :: headsItems xs o
/-- The closed list heads of the items of a list whose data starts at offset `o`. -/
def headsItems : List Item → Nat → List ListHead
  | [], _ => []
  | x :: xs, o => heads x o ++ headsItems xs (o + (strData x).length)
end

theorem strDataItems_length_add {xs : List Item}
    (h : ∀ x ∈ xs, (strData x).length + headBytes x = x.encode.length) :
    (strDataItems xs).length + headBytesItems xs = (encodeItems xs).length := by
  induction xs with
  | nil => rfl
  | cons x xs ih =>
    have hx := h x List.mem_cons_self
    have hxs := ih fun y hy => h y (List.mem_cons_of_mem x hy)
    simp only [strDataItems, headBytesItems, encodeItems_cons, List.length_append]
    omega

/-- A tree's encoding is its string data and its list headers. -/
theorem strData_length_add (t : Item) : (strData t).length + headBytes t = t.encode.length := by
  induction t using Item.induction with
  | str bs => simp [strData, headBytes, Item.encode]
  | list xs ih =>
    have hxs := strDataItems_length_add ih
    simp only [strData, headBytes, Item.encode, List.length_append]
    omega

theorem writeItems_eq {xs : List Item}
    (h : ∀ x ∈ xs, ∀ w, writeItem w x =
      some ⟨w.str ++ strData x, w.lheads ++ heads x w.str.length, w.lhsize + headBytes x⟩)
    (w : Encbuf) :
    writeItems w xs = some ⟨w.str ++ strDataItems xs, w.lheads ++ headsItems xs w.str.length,
      w.lhsize + headBytesItems xs⟩ := by
  induction xs generalizing w with
  | nil => simp [writeItems, strDataItems, headsItems, headBytesItems]
  | cons x xs ih =>
    rw [writeItems, h x List.mem_cons_self w, Option.bind_some,
      ih (fun y hy => h y (List.mem_cons_of_mem x hy))]
    simp [strDataItems, headsItems, headBytesItems, Nat.add_assoc]

/-- `listEnd` on the head a list opened, after its items: the head gets the payload's size and
    `lhsize` grows by the header's. -/
theorem listEnd_items (w : Encbuf) (xs : List Item) :
    Encbuf.listEnd ⟨w.str ++ strDataItems xs, (w.lheads ++ [⟨w.str.length, w.lhsize⟩]) ++
        headsItems xs w.str.length, w.lhsize + headBytesItems xs⟩ w.lheads.length =
      some ⟨w.str ++ strDataItems xs,
        w.lheads ++ heads (.list xs) w.str.length, w.lhsize + headBytes (.list xs)⟩ := by
  have hlen := @strDataItems_length_add xs fun x _ => strData_length_add x
  have hsize : (w.str ++ strDataItems xs).length + (w.lhsize + headBytesItems xs) -
      w.str.length - w.lhsize = (encodeItems xs).length := by
    rw [List.length_append]
    omega
  have hhead := header_length 0xC0 (encodeItems xs).length
  unfold Encbuf.listEnd Encbuf.size
  rw [List.append_assoc, List.getElem?_append_right (Nat.le_refl _), Nat.sub_self]
  simp only [List.cons_append, List.nil_append, List.getElem?_cons_zero, hsize]
  rw [List.set_append_right _ _ (Nat.le_refl _), Nat.sub_self, List.set_cons_zero]
  simp only [heads, headBytes, hhead, Encbuf.mk.injEq, true_and, Option.some.injEq]
  split_ifs <;> omega

/-- Writing a tree appends its string data, its closed list heads and their size. -/
theorem writeItem_eq (t : Item) (w : Encbuf) :
    writeItem w t =
      some ⟨w.str ++ strData t, w.lheads ++ heads t w.str.length, w.lhsize + headBytes t⟩ := by
  induction t using Item.induction generalizing w with
  | str bs => simp [writeItem, Encbuf.encodeString_eq, strData, heads, headBytes]
  | list xs ih =>
    -- the items are written after the new head, which `listEnd` then closes
    have hitems := writeItems_eq ih { w with lheads := w.lheads ++ [⟨w.str.length, w.lhsize⟩] }
    simp only [writeItem, Encbuf.list, hitems, Option.bind_some]
    exact listEnd_items w xs

/-! ## Splicing the headers back -/

/-- Two adjacent slices of the string data make one. -/
theorem slice_append (l : List Nat) {p o q : Nat} (hpo : p ≤ o) (hoq : o ≤ q) :
    (l.drop p).take (o - p) ++ (l.drop o).take (q - o) = (l.drop p).take (q - p) := by
  rw [show q - p = (o - p) + (q - o) by omega, List.take_add, List.drop_drop,
    show p + (o - p) = o by omega]

theorem slice_middle (A s B : List Nat) : ((A ++ s ++ B).drop A.length).take s.length = s := by
  simp

/-- `spliceHead` at a head whose offset lies in the string data: the data up to the offset, then
    the header. -/
theorem spliceHead_eq {str out : List Nat} {p : Nat} {head : ListHead} (hp : p ≤ head.offset)
    (hoff : head.offset ≤ str.length) :
    Encbuf.spliceHead str (out, p) head =
      (out ++ (str.drop p).take (head.offset - p) ++ header 0xC0 head.size, head.offset) := by
  have hlen : ((str.drop p).take (head.offset - p)).length = head.offset - p := by
    simp only [List.length_take, List.length_drop]
    omega
  simp only [Encbuf.spliceHead, hlen, ListHead.encode_eq, Prod.mk.injEq, true_and]
  omega

theorem foldl_spliceHead_headsItems {xs : List Item}
    (h : ∀ x ∈ xs, ∀ (A B out : List Nat) (p : Nat), p ≤ A.length →
      ∃ out' p', (heads x A.length).foldl (Encbuf.spliceHead (A ++ strData x ++ B)) (out, p) =
          (out', p') ∧ p' ≤ A.length + (strData x).length ∧
        out' ++ ((A ++ strData x ++ B).drop p').take (A.length + (strData x).length - p') =
          out ++ ((A ++ strData x ++ B).drop p).take (A.length - p) ++ x.encode)
    (A B out : List Nat) (p : Nat) (hp : p ≤ A.length) :
    ∃ out' p', (headsItems xs A.length).foldl (Encbuf.spliceHead (A ++ strDataItems xs ++ B))
        (out, p) = (out', p') ∧ p' ≤ A.length + (strDataItems xs).length ∧
      out' ++ ((A ++ strDataItems xs ++ B).drop p').take
          (A.length + (strDataItems xs).length - p') =
        out ++ ((A ++ strDataItems xs ++ B).drop p).take (A.length - p) ++ encodeItems xs := by
  induction xs generalizing A out p with
  | nil => exact ⟨out, p, rfl, by simpa [strDataItems] using hp, by simp [strDataItems]⟩
  | cons x xs ih =>
    -- the first item's heads, then the rest's, whose data starts after the first item's
    have hx := h x List.mem_cons_self A (strDataItems xs ++ B) out p hp
    obtain ⟨o₁, p₁, h₁, hp₁, he₁⟩ := hx
    have hrest := ih (fun y hy => h y (List.mem_cons_of_mem x hy)) (A ++ strData x) o₁ p₁
      (by rw [List.length_append]; exact hp₁)
    obtain ⟨o₂, p₂, h₂, hp₂, he₂⟩ := hrest
    simp only [List.append_assoc, List.length_append] at h₁ he₁ h₂ he₂ hp₂
    refine ⟨o₂, p₂, ?_, ?_, ?_⟩
    · simp only [headsItems, strDataItems, List.foldl_append, List.append_assoc, h₁, h₂]
    · simp only [strDataItems, List.length_append]
      omega
    · simp only [strDataItems, List.append_assoc, List.length_append, encodeItems_cons,
        ← Nat.add_assoc] at he₂ ⊢
      rw [he₂, ← List.append_assoc, he₁, List.append_assoc, List.append_assoc]

/-- Splicing the heads of a tree into string data that holds the tree's data at their offsets
    emits the data before the tree and then the tree's encoding, except for data after its last
    head, which is still to be emitted. -/
theorem foldl_spliceHead_heads (t : Item) :
    ∀ (A B out : List Nat) (p : Nat), p ≤ A.length →
      ∃ out' p', (heads t A.length).foldl (Encbuf.spliceHead (A ++ strData t ++ B)) (out, p) =
          (out', p') ∧ p' ≤ A.length + (strData t).length ∧
        out' ++ ((A ++ strData t ++ B).drop p').take (A.length + (strData t).length - p') =
          out ++ ((A ++ strData t ++ B).drop p).take (A.length - p) ++ t.encode := by
  induction t using Item.induction with
  | str bs =>
    intro A B out p hp
    refine ⟨out, p, rfl, by omega, ?_⟩
    rw [← slice_append _ hp (Nat.le_add_right _ _), Nat.add_sub_cancel_left, slice_middle]
    simp only [List.append_assoc]
    rfl
  | list xs ih =>
    -- the list's own header first, then the heads of its items
    intro A B out p hp
    have hoff : A.length ≤ (A ++ strData (.list xs) ++ B).length := by simp
    have hfirst := @spliceHead_eq _ out _ ⟨A.length, (encodeItems xs).length⟩ hp hoff
    obtain ⟨o', p', hfold, hp', he⟩ := foldl_spliceHead_headsItems ih A B
      (out ++ ((A ++ strData (.list xs) ++ B).drop p).take (A.length - p) ++
        header 0xC0 (encodeItems xs).length) A.length (Nat.le_refl _)
    refine ⟨o', p', ?_, hp', ?_⟩
    · simp only [heads, List.foldl_cons]
      rw [hfirst]
      exact hfold
    · simp only [strData] at he ⊢
      rw [he, Nat.sub_self, List.take_zero, List.append_nil, Item.encode, List.append_assoc,
        List.append_assoc]

/-- `EncodeToBytes` of a tree returns its encoding. -/
theorem encodeToBytes_eq (t : Item) : encodeToBytes t = some t.encode := by
  obtain ⟨out, p, hfold, hp, he⟩ := foldl_spliceHead_heads t [] [] [] 0 (Nat.le_refl _)
  simp only [List.nil_append, List.append_nil, List.length_nil, Nat.zero_add, List.drop_zero,
    Nat.sub_zero, List.take_zero] at hfold hp he
  rw [List.take_of_length_le (by simp)] at he
  rw [encodeToBytes, writeItem_eq, Option.map_some, Encbuf.empty]
  simp only [List.nil_append, List.length_nil, Nat.zero_add]
  unfold Encbuf.toBytes
  rw [hfold]
  exact congrArg some he

example : encodeToBytes (.list [.str [0x7F], .list [.str [0x80]], .str []]) =
    some [0xC5, 0x7F, 0xC2, 0x81, 0x80, 0x80] := by
  decide

end QuorumHotstuff.Lib.Rlp
