import QuorumHotstuff.Lib.Rlp.Encbuf

/-!
# Writing the buffer out, and reading it back

The two other outputs of `encbuf` in `rlp/encode.go`.  `Encode` hands the buffer to
`encbuf.toWriter`, which writes the string data before each list header (when there is any), the
header, and the data after the last header, each with one `Write`.  `EncodeToReader` returns
`encbuf.size` and an `encReader`, whose `next` hands out the same pieces one at a time and whose
`Read` copies them into the caller's buffer, keeping what did not fit for the next call.

Both produce `toBytes`'s bytes: the pieces `toWriter` writes make them up (`flatten_toWriter`),
and `Read` returns the next bytes of them, as many as fit, with `EOF` once none are left
(`read_spec`).  The reader's state is read through the bytes it has still to give
(`EncReader.remaining`); `next` gives them a piece at a time when every header lies within the
string data (`EncReader.Valid`), as it does for every buffer a tree was written into.
-/

namespace QuorumHotstuff.Lib.Rlp

namespace Encbuf

/-- The `Write` calls of `toWriter` from the head list `heads` on, with the string data written up
    to `strpos`: data before a header only when there is some. -/
def writePieces (str : List Nat) : List ListHead → Nat → List (List Nat)
  | [], strpos => if strpos < str.length then [str.drop strpos] else []
  | head :: heads, strpos =>
    if head.offset - strpos > 0 then
      let data := (str.drop strpos).take (head.offset - strpos)
      data :: head.encode :: writePieces str heads (strpos + data.length)
    else head.encode :: writePieces str heads strpos

/-- `toWriter` to a writer that takes every byte: the pieces it is handed, in order. -/
def toWriter (w : Encbuf) : List (List Nat) := writePieces w.str w.lheads 0

end Encbuf

/-- `Encode` of a tree: `reset`, the writer, `toWriter`. -/
def encode (t : Item) : Option (List (List Nat)) := (writeItem .empty t).map Encbuf.toWriter

/-- `encReader`: the buffer (none once `EOF` was read), the next list header, the position in the
    string data, and what is left of the piece being read (`nil` is the empty list; no piece is
    empty). -/
structure EncReader where
  buf : Option Encbuf
  lhpos : Nat
  strpos : Nat
  piece : List Nat
deriving DecidableEq, Repr

/-- `EncodeToReader` of a tree: the buffer's size and a reader at its start. -/
def encodeToReader (t : Item) : Option (Nat × EncReader) :=
  (writeItem .empty t).map fun eb => (eb.size, ⟨some eb, 0, 0, []⟩)

namespace EncReader

/-- `next`: the piece being read, else the data before the next header, the header, or the data
    after the last header; `none` at `EOF`. -/
def next (r : EncReader) : Option (List Nat) × EncReader :=
  match r.buf with
  | none => (none, r)
  | some buf =>
    if r.piece ≠ [] then (some r.piece, r)
    else match buf.lheads[r.lhpos]? with
      | some head =>
        let sizebefore := head.offset - r.strpos
        if sizebefore > 0 then
          (some ((buf.str.drop r.strpos).take (head.offset - r.strpos)),
            { r with strpos := r.strpos + sizebefore })
        else (some head.encode, { r with lhpos := r.lhpos + 1 })
      | none =>
        if r.strpos < buf.str.length then
          (some (buf.str.drop r.strpos), { r with strpos := buf.str.length })
        else (none, r)

/-- The bytes the reader has still to give. -/
def remaining (r : EncReader) : List Nat :=
  match r.buf with
  | none => []
  | some buf => r.piece ++ (Encbuf.writePieces buf.str (buf.lheads.drop r.lhpos) r.strpos).flatten

/-- The loop of `Read` with `room` bytes left in the caller's buffer: the bytes copied, whether
    `EOF` was met, and the reader after.  Each round either returns or uses up a piece, so `fuel`
    above the bytes left is enough. -/
def readLoop : Nat → Nat → EncReader → (List Nat × Bool) × EncReader
  | 0, _, r => (([], false), r)
  | fuel + 1, room, r =>
    match r.next with
    -- the buffer is released at `EOF`
    | (none, r) => (([], true), { r with buf := none })
    | (some piece, r) =>
      let nn := min room piece.length
      if nn < piece.length then ((piece.take nn, false), { r with piece := piece.drop nn })
      else
        let ((out, eof), r) := readLoop fuel (room - nn) { r with piece := [] }
        ((piece ++ out, eof), r)

/-- `Read` into a buffer of `k` bytes. -/
def read (r : EncReader) (k : Nat) : (List Nat × Bool) × EncReader :=
  readLoop (r.remaining.length + 1) k r

/-- `Read` after `Read` with the buffer sizes `ks`, up to `EOF`: the bytes read and whether `EOF`
    was met. -/
def readTo (r : EncReader) : List Nat → List Nat × Bool
  | [] => ([], false)
  | k :: ks =>
    let ((out, eof), r) := r.read k
    if eof then (out, true)
    else
      let (rest, eof) := r.readTo ks
      (out ++ rest, eof)

/-- Every list header lies within the string data. -/
def Valid (r : EncReader) : Prop := ∀ buf ∈ r.buf, ∀ head ∈ buf.lheads, head.offset ≤ buf.str.length

end EncReader

/-! ## The writer -/

theorem ListHead.encode_ne_nil (head : ListHead) : head.encode ≠ [] := by
  unfold ListHead.encode puthead
  split_ifs <;> simp

namespace Encbuf

/-- The writes from a head on make up what `toBytes` splices from it. -/
theorem foldl_spliceHead_flatten (str : List Nat) (heads : List ListHead) :
    ∀ (out : List Nat) (strpos : Nat),
      (heads.foldl (spliceHead str) (out, strpos)).1 ++
          str.drop (heads.foldl (spliceHead str) (out, strpos)).2 =
        out ++ (writePieces str heads strpos).flatten := by
  induction heads with
  | nil =>
    intro out strpos
    simp only [List.foldl_nil, writePieces]
    split_ifs with h
    · simp
    · simp [List.drop_eq_nil_of_le (Nat.le_of_not_lt h)]
  | cons head heads ih =>
    intro out strpos
    rw [List.foldl_cons, spliceHead, ih]
    -- with no data before the header, `spliceHead`'s slice is empty
    rw [writePieces.eq_2]
    split_ifs with h
    · simp
    · have h0 : head.offset - strpos = 0 := by omega
      simp [h0]

/-- What `toWriter` writes is what `toBytes` returns. -/
theorem flatten_toWriter (w : Encbuf) : w.toWriter.flatten = w.toBytes := by
  have h := foldl_spliceHead_flatten w.str w.lheads [] 0
  rw [List.nil_append] at h
  rw [toWriter, ← h, toBytes]

/-- With data before the header, it is written and then the header. -/
theorem writePieces_data {str : List Nat} {head : ListHead} {strpos : Nat}
    (hoff : head.offset ≤ str.length) (hpos : strpos < head.offset) (heads : List ListHead) :
    writePieces str (head :: heads) strpos =
      (str.drop strpos).take (head.offset - strpos) :: head.encode ::
        writePieces str heads head.offset := by
  have hlen : ((str.drop strpos).take (head.offset - strpos)).length = head.offset - strpos := by
    simp only [List.length_take, List.length_drop]
    omega
  rw [writePieces.eq_2, if_pos (by omega)]
  dsimp only
  rw [hlen, Nat.add_sub_cancel' (Nat.le_of_lt hpos)]

/-- With none, the header alone. -/
theorem writePieces_head {str : List Nat} {head : ListHead} {strpos : Nat}
    (hpos : head.offset ≤ strpos) (heads : List ListHead) :
    writePieces str (head :: heads) strpos = head.encode :: writePieces str heads strpos := by
  rw [writePieces.eq_2, if_neg (by omega)]

theorem writePieces_nil_of_le {str : List Nat} {strpos : Nat} (h : str.length ≤ strpos) :
    writePieces str [] strpos = [] := by
  rw [writePieces.eq_1, if_neg (by omega)]

end Encbuf

/-! ## The reader -/

namespace EncReader

theorem remaining_eq {r : EncReader} {buf : Encbuf} (hbuf : r.buf = some buf) :
    r.remaining = r.piece ++ remaining { r with piece := [] } := by
  simp [remaining, hbuf]

/-- What `next` does to the bytes left: with none, `EOF`; otherwise a piece that is not empty and
    comes first.  The buffer is kept. -/
theorem next_spec {r : EncReader} (hr : r.Valid) :
    (r.remaining = [] ∧ r.next = (none, r)) ∨
    ∃ piece r', r.next = (some piece, r') ∧ piece ≠ [] ∧ r'.buf = r.buf ∧
      piece ++ remaining { r' with piece := [] } = r.remaining := by
  rcases hbuf : r.buf with _ | buf
  · left
    simp [remaining, next, hbuf]
  have hvalid := hr buf hbuf
  by_cases hp : r.piece = []
  swap
  -- the rest of the piece being read
  · right
    exact ⟨r.piece, r, by simp [next, hbuf, hp], hp, hbuf, (remaining_eq hbuf).symm⟩
  have hrem : r.remaining =
      (Encbuf.writePieces buf.str (buf.lheads.drop r.lhpos) r.strpos).flatten := by
    simp [remaining, hbuf, hp]
  cases hhead : buf.lheads[r.lhpos]? with
  | some head =>
    right
    obtain ⟨hlt, hget⟩ := List.getElem?_eq_some_iff.mp hhead
    have hdrop : buf.lheads.drop r.lhpos = head :: buf.lheads.drop (r.lhpos + 1) := by
      rw [List.drop_eq_getElem_cons hlt, hget]
    have hoff := hvalid head (hget ▸ List.getElem_mem hlt)
    by_cases hpos : r.strpos < head.offset
    -- the string data before the header
    · refine ⟨(buf.str.drop r.strpos).take (head.offset - r.strpos),
        { r with strpos := r.strpos + (head.offset - r.strpos) }, ?_, ?_, hbuf, ?_⟩
      · simp [next, hbuf, hp, hhead, show head.offset - r.strpos > 0 by omega]
      · simp only [ne_eq, List.take_eq_nil_iff, List.drop_eq_nil_iff, not_or]
        omega
      · rw [hrem, hdrop, Encbuf.writePieces_data hoff hpos]
        simp [remaining, hbuf, hdrop, Nat.add_sub_cancel' (Nat.le_of_lt hpos),
          Encbuf.writePieces_head (Nat.le_refl head.offset)]
    -- the header
    · refine ⟨head.encode, { r with lhpos := r.lhpos + 1 }, ?_, ListHead.encode_ne_nil head, hbuf,
        ?_⟩
      · simp [next, hbuf, hp, hhead, show ¬ head.offset - r.strpos > 0 by omega]
      · rw [hrem, hdrop, Encbuf.writePieces_head (by omega)]
        simp [remaining, hbuf]
  | none =>
    have hdrop : buf.lheads.drop r.lhpos = [] :=
      List.drop_eq_nil_of_le (List.getElem?_eq_none_iff.mp hhead)
    by_cases hpos : r.strpos < buf.str.length
    -- the string data after the last header
    · right
      refine ⟨buf.str.drop r.strpos, { r with strpos := buf.str.length }, ?_, ?_, hbuf, ?_⟩
      · simp [next, hbuf, hp, hhead, hpos]
      · simp only [ne_eq, List.drop_eq_nil_iff]
        omega
      · rw [hrem, hdrop, Encbuf.writePieces.eq_1, if_pos hpos]
        simp [remaining, hbuf, hdrop, Encbuf.writePieces_nil_of_le (Nat.le_refl _)]
    · left
      refine ⟨?_, by simp [next, hbuf, hp, hhead, hpos]⟩
      rw [hrem, hdrop, Encbuf.writePieces_nil_of_le (by omega)]
      rfl

theorem Valid.of_buf {r r' : EncReader} (hr : r.Valid) (hbuf : r'.buf = r.buf) : r'.Valid := by
  intro buf hb
  exact hr buf (hbuf ▸ hb)

theorem remaining_setPiece {r : EncReader} {buf : Encbuf} (hbuf : r.buf = some buf) (q : List Nat) :
    remaining { r with piece := q } = q ++ remaining { r with piece := [] } := by
  simp [remaining, hbuf]

/-- The loop of `Read` copies the next `room` bytes, or all that are left together with `EOF`. -/
theorem readLoop_spec (fuel : Nat) :
    ∀ (room : Nat) (r : EncReader), r.Valid → r.remaining.length < fuel →
      ∃ r', readLoop fuel room r = ((r.remaining.take room, decide (r.remaining.length ≤ room)), r') ∧
        r'.remaining = r.remaining.drop room ∧ r'.Valid := by
  induction fuel with
  | zero => intro room r _ hlt; omega
  | succ fuel ih =>
    intro room r hr hlt
    rcases next_spec hr with ⟨hrem, hnext⟩ | ⟨piece, r', hnext, hne, hbuf', hpieces⟩
    -- nothing left: `EOF`, and the buffer is released
    · refine ⟨{ r with buf := none }, ?_, ?_, fun buf hb => by cases hb⟩
      · simp [readLoop, hnext, hrem]
      · rw [hrem, List.drop_nil]
        rfl
    obtain ⟨buf, hbuf⟩ : ∃ buf, r'.buf = some buf := by
      cases hb : r.buf with
      | none => simp [next, hb] at hnext
      | some buf => exact ⟨buf, hbuf' ▸ hb⟩
    have hvalid' : Valid { r' with piece := [] } := hr.of_buf hbuf'
    have hpos : 0 < piece.length := List.length_pos_iff.mpr hne
    rw [← hpieces]
    by_cases hfit : room < piece.length
    -- the piece does not fit: what fits is copied and the rest kept
    · have heof : decide ((piece ++ remaining { r' with piece := [] }).length ≤ room) = false := by
        simp only [decide_eq_false_iff_not, List.length_append]
        omega
      refine ⟨{ r' with piece := piece.drop room }, ?_, ?_, hr.of_buf hbuf'⟩
      · simp only [readLoop, hnext, Nat.min_eq_left (Nat.le_of_lt hfit), if_pos hfit,
          List.take_append_of_le_length (Nat.le_of_lt hfit), heof]
      · rw [remaining_setPiece hbuf, List.drop_append_of_le_length (Nat.le_of_lt hfit)]
    -- the piece is copied whole and the loop goes on
    · have hrest : (remaining { r' with piece := [] }).length < fuel := by
        rw [← hpieces, List.length_append] at hlt
        omega
      obtain ⟨r'', hloop, hrem'', hvalid''⟩ :=
        ih (room - piece.length) { r' with piece := [] } hvalid' hrest
      have heof : decide ((piece ++ remaining { r' with piece := [] }).length ≤ room) =
          decide ((remaining { r' with piece := [] }).length ≤ room - piece.length) := by
        simp only [List.length_append, decide_eq_decide]
        omega
      refine ⟨r'', ?_, ?_, hvalid''⟩
      · simp only [readLoop, hnext, Nat.min_eq_right (Nat.le_of_not_lt hfit),
          Nat.lt_irrefl, if_false, hloop, List.take_append,
          List.take_of_length_le (Nat.le_of_not_lt hfit), heof]
      · rw [hrem'', List.drop_append,
          List.drop_eq_nil_of_le (Nat.le_of_not_lt hfit), List.nil_append]

/-- `Read` into `k` bytes: the next `k` bytes, or all that are left together with `EOF`. -/
theorem read_spec {r : EncReader} (hr : r.Valid) (k : Nat) :
    ∃ r', r.read k = ((r.remaining.take k, decide (r.remaining.length ≤ k)), r') ∧
      r'.remaining = r.remaining.drop k ∧ r'.Valid :=
  readLoop_spec _ k r hr (Nat.lt_succ_self _)

/-- Reading with the buffer sizes `ks` gives as many bytes as they add up to, and `EOF` when that
    is all of them. -/
theorem readTo_spec (ks : List Nat) :
    ∀ r : EncReader, r.Valid → r.remaining ≠ [] →
      r.readTo ks = (r.remaining.take ks.sum, decide (r.remaining.length ≤ ks.sum)) := by
  induction ks with
  | nil =>
    intro r _ hne
    simp [readTo, hne]
  | cons k ks ih =>
    intro r hr hne
    obtain ⟨r', hread, hrem', hvalid'⟩ := read_spec hr k
    simp only [readTo, hread]
    rw [List.sum_cons]
    by_cases heof : r.remaining.length ≤ k
    · rw [decide_eq_true heof, if_pos rfl, List.take_of_length_le heof,
        List.take_of_length_le (by omega)]
      rw [decide_eq_true (show r.remaining.length ≤ k + ks.sum by omega)]
    -- the rest of the bytes, from the reader after the first `Read`
    · have hne' : r'.remaining ≠ [] := by
        rw [hrem', ne_eq, List.drop_eq_nil_iff]
        omega
      have hlen : decide (r'.remaining.length ≤ ks.sum) =
          decide (r.remaining.length ≤ k + ks.sum) := by
        simp only [hrem', List.length_drop, decide_eq_decide]
        omega
      rw [decide_eq_false heof, if_neg Bool.false_ne_true, ih r' hvalid' hne', hlen, hrem',
        List.take_add]

end EncReader

/-! ## The three outputs of a tree -/

theorem headsItems_offset_le {xs : List Item}
    (h : ∀ x ∈ xs, ∀ o, ∀ head ∈ heads x o, head.offset ≤ o + (strData x).length) :
    ∀ o, ∀ head ∈ headsItems xs o, head.offset ≤ o + (strDataItems xs).length := by
  induction xs with
  | nil => intro o head hh; cases hh
  | cons x xs ih =>
    intro o head hh
    simp only [headsItems, List.mem_append] at hh
    simp only [strDataItems, List.length_append]
    rcases hh with hx | hxs
    · have := h x List.mem_cons_self o head hx
      omega
    · have := ih (fun y hy => h y (List.mem_cons_of_mem x hy)) _ head hxs
      omega

/-- The headers of a tree lie within its string data. -/
theorem heads_offset_le (t : Item) :
    ∀ o, ∀ head ∈ heads t o, head.offset ≤ o + (strData t).length := by
  induction t using Item.induction with
  | str bs => intro o head hh; cases hh
  | list xs ih =>
    intro o head hh
    rcases List.mem_cons.mp hh with rfl | hxs
    · exact Nat.le_add_right _ _
    · exact headsItems_offset_le ih o head hxs

/-- `EncodeToReader` of a tree: its encoding's length, and a reader with the encoding to give. -/
theorem encodeToReader_eq (t : Item) :
    ∃ r, encodeToReader t = some (t.encode.length, r) ∧ r.Valid ∧ r.remaining = t.encode := by
  have hw : writeItem .empty t = some ⟨strData t, heads t 0, headBytes t⟩ := by
    simp [writeItem_eq, Encbuf.empty]
  have hbytes := encodeToBytes_eq t
  rw [encodeToBytes, hw, Option.map_some, Option.some.injEq] at hbytes
  refine ⟨⟨some ⟨strData t, heads t 0, headBytes t⟩, 0, 0, []⟩, ?_, ?_, ?_⟩
  · rw [encodeToReader, hw, Option.map_some, Encbuf.size, strData_length_add]
  · intro buf hb head hh
    cases hb
    simpa using heads_offset_le t 0 head hh
  · rw [← hbytes, ← Encbuf.flatten_toWriter]
    rfl

example : (encodeToReader (.list [.str [0x7F], .list [.str [0x80]], .str []])).map
      (fun p => p.2.readTo [2, 0, 1, 5]) = some ([0xC5, 0x7F, 0xC2, 0x81, 0x80, 0x80], true) := by
  decide

/-- `Encode`, `EncodeToBytes` and `EncodeToReader` give the same bytes: the encoding of the tree.
`EncodeToReader` returns its length, and reading the reader with any buffer sizes gives as many of
its bytes as the sizes add up to, with `EOF` once they cover it. -/
theorem rlp_output_paths_agree (t : Item) :
    (∃ pieces, encode t = some pieces ∧ pieces.flatten = t.encode) ∧
    encodeToBytes t = some t.encode ∧
    ∃ r, encodeToReader t = some (t.encode.length, r) ∧
      ∀ ks : List Nat, r.readTo ks = (t.encode.take ks.sum, decide (t.encode.length ≤ ks.sum)) := by
  obtain ⟨r, hreader, hvalid, hrem⟩ := encodeToReader_eq t
  have hbytes := encodeToBytes_eq t
  refine ⟨?_, hbytes, r, hreader, fun ks => ?_⟩
  · -- `Encode` writes the pieces whose bytes `toBytes` returns
    obtain ⟨w, hw, hto⟩ := Option.map_eq_some_iff.mp hbytes
    refine ⟨w.toWriter, by rw [encode, hw, Option.map_some], ?_⟩
    rw [Encbuf.flatten_toWriter, hto]
  · rw [EncReader.readTo_spec ks r hvalid (hrem ▸ encode_ne_nil t), hrem]

end QuorumHotstuff.Lib.Rlp
