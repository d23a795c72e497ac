import Mathlib.Data.List.TakeDrop
import Mathlib.Data.List.Infix

/-!
# Buffered reading

Go's `bufio.Reader` over a connection, as far as `ReadString` uses it. The connection is an
`io.Reader` given by the results of its successive `Read` calls (`ChunkReader`): a `Read` into
room for `n` bytes returns at most `n` bytes of the next result and leaves the rest of it for the
next call, and once nothing is left it returns `io.EOF`. A `bufio.Reader` holds the bytes
`buf[r:w]` of its buffer of `defaultBufSize` bytes, the connection, and the error of its last
`fill` that it has not reported yet.

`fill` slides what is buffered to the front and reads into the room after it, trying again after
a read that returned nothing, up to `maxConsecutiveEmptyReads` times. `ReadSlice` returns the
buffered bytes up to the first delimiter, or the pending error with what is buffered, or a full
buffer, and fills as long as none of these holds. `ReadString` gathers the full buffers until
`ReadSlice` ends otherwise.

## What is proved

- `readString_pending`: inside one `bufio.Reader` no byte is lost or made up: what `ReadString`
  returns, then what the reader and its connection hold after, is what they held before;
- `readString_line` and `readString_error`: what it returns is a line up to its first
  delimiter, or with an error, bytes with no delimiter;
- `readString_newReader_of_aligned`, `readString_of_aligned`: on a connection whose every read
  result ends at a delimiter or holds none (`ChunkReader.Aligned`), a new reader returns the
  first line and leaves nothing in its buffer; the connection holds the rest, aligned as before;
  the invariant that carries this through `fill` and `ReadSlice` is `Reader.Aligned`;
- `readString_of_chunk`: a first read result with bytes after its first delimiter leaves those
  bytes in the buffer, and the connection does not deliver them again.
-/

set_option autoImplicit false

namespace Bufio

/-- `io.EOF`, and `io.ErrNoProgress` from a reader that keeps returning nothing. -/
inductive Error
  | eof
  | noProgress
  deriving DecidableEq, Repr

/-- An `io.Reader` given by the results of its successive `Read` calls. -/
structure ChunkReader where
  chunks : List (List UInt8)
  deriving DecidableEq, Repr

namespace ChunkReader

/-- `Read` into room for `n` bytes: the next result, or its first `n` bytes. -/
def read (r : ChunkReader) (n : Nat) : List UInt8 × Option Error × ChunkReader :=
  match r.chunks with
  | [] => ([], some .eof, r)
  | c :: cs => if c.length ≤ n then (c, none, ⟨cs⟩) else (c.take n, none, ⟨c.drop n :: cs⟩)

/-- The bytes the connection has still to deliver. -/
def bytes (r : ChunkReader) : List UInt8 := r.chunks.flatten

/-- Every read result is nonempty and holds the delimiter at most as its last byte. -/
def Aligned (delim : UInt8) (r : ChunkReader) : Prop :=
  ∀ c ∈ r.chunks, c ≠ [] ∧ delim ∉ c.dropLast

theorem read_bytes (r : ChunkReader) (n : Nat) :
    (r.read n).1 ++ (r.read n).2.2.bytes = r.bytes := by
  rcases r with ⟨_ | ⟨c, cs⟩⟩
  · rfl
  · simp only [read, bytes]
    split
    · rfl
    · simp only [List.flatten_cons, ← List.append_assoc, List.take_append_drop]

end ChunkReader

/-- The state of a `bufio.Reader`: the bytes `buf[r:w]` it holds, the connection, and the error
of its last `fill` not reported yet. -/
structure Reader where
  buf : List UInt8
  rd : ChunkReader
  err : Option Error

/-- `defaultBufSize`. -/
def defaultBufSize : Nat := 4096

/-- `maxConsecutiveEmptyReads`. -/
def maxConsecutiveEmptyReads : Nat := 100

/-- `NewReader`: an empty buffer of `defaultBufSize` bytes over the connection. -/
def newReader (rd : ChunkReader) : Reader := ⟨[], rd, none⟩

/-- The bytes the reader and its connection hold between them. -/
def Reader.pending (b : Reader) : List UInt8 := b.buf ++ b.rd.bytes

/-- The read loop of `fill` with `i` tries left. What is buffered has been slid to the front, so
a read gets the room after it. -/
def fillLoop : Nat → Reader → Reader
  | 0, b => { b with err := some .noProgress }
  | i + 1, b =>
    let (bytes, err, rd) := b.rd.read (defaultBufSize - b.buf.length)
    match err with
    | some e => ⟨b.buf ++ bytes, rd, some e⟩
    | none => if bytes = [] then fillLoop i { b with rd := rd } else { b with buf := b.buf ++ bytes, rd := rd }

/-- `fill`. It is called only on a buffer that is not full, so its check for a full buffer never
fires. -/
def fill (b : Reader) : Reader := fillLoop maxConsecutiveEmptyReads b

theorem fillLoop_pending : ∀ (i : Nat) (b : Reader), (fillLoop i b).pending = b.pending
  | 0, b => rfl
  | i + 1, b => by
    have hread := b.rd.read_bytes (defaultBufSize - b.buf.length)
    rcases h : b.rd.read (defaultBufSize - b.buf.length) with ⟨bytes, err, rd⟩
    rw [h] at hread
    rcases err with _ | e <;> simp only [fillLoop, h]
    · by_cases hb : bytes = []
      · rw [if_pos hb, fillLoop_pending i, Reader.pending, Reader.pending, ← hread, hb]
        rfl
      · rw [if_neg hb, Reader.pending, Reader.pending, ← hread, List.append_assoc]
    · rw [Reader.pending, Reader.pending, ← hread, List.append_assoc]

/-- Each round of `fill` keeps what is buffered and either reads a byte more or sets an error. -/
theorem fillLoop_progress : ∀ (i : Nat) (b : Reader),
    b.buf <+: (fillLoop i b).buf ∧
      ((fillLoop i b).err.isSome ∨ b.buf.length < (fillLoop i b).buf.length)
  | 0, b => ⟨List.prefix_refl _, .inl rfl⟩
  | i + 1, b => by
    rcases h : b.rd.read (defaultBufSize - b.buf.length) with ⟨bytes, err, rd⟩
    rcases err with _ | e <;> simp only [fillLoop, h]
    · by_cases hb : bytes = []
      · rw [if_pos hb]
        exact fillLoop_progress i { b with rd := rd }
      · rw [if_neg hb]
        refine ⟨List.prefix_append _ _, .inr ?_⟩
        simp only [List.length_append]
        have := List.length_pos_iff.mpr hb
        omega
    · exact ⟨List.prefix_append _ _, .inl rfl⟩

theorem fill_progress (b : Reader) :
    b.buf <+: (fill b).buf ∧ ((fill b).err.isSome ∨ b.buf.length < (fill b).buf.length) :=
  fillLoop_progress maxConsecutiveEmptyReads b

/-- How `ReadSlice` ends: at the delimiter, with a full buffer (`ErrBufferFull`), or with the
pending error. -/
inductive SliceEnd
  | delim
  | bufferFull
  | error (e : Error)
  deriving DecidableEq, Repr

/-- `ReadSlice(delim)`. Go searches only the bytes it has not searched yet; they are the whole
buffer but for a part with no delimiter, so searching the whole buffer finds the same. -/
def readSlice (delim : UInt8) (b : Reader) : List UInt8 × SliceEnd × Reader :=
  match b.buf.idxOf? delim with
  | some i => (b.buf.take (i + 1), .delim, { b with buf := b.buf.drop (i + 1) })
  | none =>
    match he : b.err with
    | some e => (b.buf, .error e, { b with buf := [], err := none })
    | none =>
      if hfull : defaultBufSize ≤ b.buf.length then (b.buf, .bufferFull, { b with buf := [] })
      else readSlice delim (fill b)
termination_by 2 * (defaultBufSize - b.buf.length) + (if b.err.isSome then 0 else 1)
decreasing_by
  obtain ⟨hpre, hprog⟩ := fill_progress b
  have hle := hpre.length_le
  simp only [he, Option.isSome_none, Bool.false_eq_true, ↓reduceIte]
  rcases hprog with hsome | hlt
  · rw [if_pos hsome]
    omega
  · split <;> omega

theorem readSlice_pending (delim : UInt8) (b : Reader) :
    (readSlice delim b).1 ++ (readSlice delim b).2.2.pending = b.pending := by
  fun_induction readSlice delim b with
  | case1 b i _ => simp only [Reader.pending, ← List.append_assoc, List.take_append_drop]
  | case2 b _ e _ => rfl
  | case3 b _ _ _ => rfl
  | case4 b _ _ _ ih => rw [ih, fill, fillLoop_pending]

theorem readSlice_bufferFull (delim : UInt8) (b : Reader) :
    (readSlice delim b).2.1 = .bufferFull → defaultBufSize ≤ (readSlice delim b).1.length := by
  fun_induction readSlice delim b with
  | case1 => simp
  | case2 => simp
  | case3 b _ _ hfull => exact fun _ => hfull
  | case4 b _ _ _ ih => exact ih

theorem pending_length_lt_of_bufferFull {delim : UInt8} {b b' : Reader} {frag : List UInt8}
    (h : readSlice delim b = (frag, .bufferFull, b')) : b'.pending.length < b.pending.length := by
  have hpend := congrArg List.length (readSlice_pending delim b)
  have hfull := readSlice_bufferFull delim b
  rw [h] at hpend hfull
  simp only [List.length_append] at hpend
  have := hfull rfl
  simp only [defaultBufSize] at this
  omega

/-- `ReadString(delim)`, by way of `collectFragments`: the full buffers, then the last
fragment, and the error `ReadSlice` ended with unless it was `ErrBufferFull`. -/
def readString (delim : UInt8) (b : Reader) : List UInt8 × Option Error × Reader :=
  match h : readSlice delim b with
  | (frag, .delim, b') => (frag, none, b')
  | (frag, .error e, b') => (frag, some e, b')
  | (frag, .bufferFull, b') =>
    let r := readString delim b'
    (frag ++ r.1, r.2.1, r.2.2)
termination_by b.pending.length
decreasing_by exact pending_length_lt_of_bufferFull h

theorem readString_pending (delim : UInt8) (b : Reader) :
    (readString delim b).1 ++ (readString delim b).2.2.pending = b.pending := by
  fun_induction readString delim b with
  | case1 b frag b' h => rw [← readSlice_pending delim b, h]
  | case2 b frag e b' h => rw [← readSlice_pending delim b, h]
  | case3 b frag b' h r ih => rw [List.append_assoc, ih, ← readSlice_pending delim b, h]

section Steps

variable {delim : UInt8} {b b' : Reader} {frag : List UInt8}

theorem readSlice_of_idxOf? {i : Nat} (h : b.buf.idxOf? delim = some i) :
    readSlice delim b = (b.buf.take (i + 1), .delim, { b with buf := b.buf.drop (i + 1) }) := by
  rw [readSlice, h]

theorem readSlice_of_fill (hidx : b.buf.idxOf? delim = none) (herr : b.err = none)
    (hroom : b.buf.length < defaultBufSize) : readSlice delim b = readSlice delim (fill b) := by
  rw [readSlice]
  split
  · rename_i heq
    rw [hidx] at heq
    cases heq
  · split
    · rename_i he
      rw [herr] at he
      cases he
    · exact dif_neg (Nat.not_le.mpr hroom)

theorem readString_of_delim (h : readSlice delim b = (frag, .delim, b')) :
    readString delim b = (frag, none, b') := by
  rw [readString]
  split <;> simp_all

end Steps

/-! ## Lines -/

section Lines

variable {α : Type}

theorem idxOf?_append_cons [DecidableEq α] {a : α} {l : List α} (r : List α) (h : a ∉ l) :
    (l ++ a :: r).idxOf? a = some l.length := by
  induction l with
  | nil => simp [List.idxOf?_cons]
  | cons x l ih =>
    have hx : x ≠ a := fun hx => h (hx ▸ List.mem_cons_self)
    simp [List.idxOf?_cons, hx, ih (fun hl => h (List.mem_cons_of_mem x hl))]

/-- At the first delimiter a list splits into a line and the rest. -/
theorem take_of_idxOf? [DecidableEq α] {a : α} {l : List α} {i : Nat} (h : l.idxOf? a = some i) :
    l.take (i + 1) = l.take i ++ [a] ∧ a ∉ l.take i := by
  obtain ⟨hi, hget, hbefore⟩ := List.idxOf?_eq_some_iff.mp h
  refine ⟨by rw [List.take_add_one, List.getElem?_eq_getElem hi, hget]; rfl, fun hmem => ?_⟩
  obtain ⟨j, hj, hjget⟩ := List.getElem_of_mem hmem
  rw [List.length_take] at hj
  rw [List.getElem_take] at hjget
  exact hbefore j (by omega) hjget

/-- When the first delimiter is the last element or none is before the last, nothing follows
it. -/
theorem drop_of_idxOf? [DecidableEq α] {a : α} {l : List α} {i : Nat} (h : l.idxOf? a = some i)
    (hlast : a ∉ l.dropLast) : l.drop (i + 1) = [] := by
  obtain ⟨hi, hget, -⟩ := List.idxOf?_eq_some_iff.mp h
  apply List.drop_eq_nil_of_le
  by_contra hlt
  apply hlast
  rw [List.dropLast_eq_take, ← hget]
  exact List.mem_iff_getElem.mpr ⟨i, by simp only [List.length_take]; omega, List.getElem_take⟩

/-- A line up to its first delimiter is determined by the list it starts. -/
theorem append_cons_inj_of_not_mem {a : α} :
    ∀ {l₁ l₂ r₁ r₂ : List α}, a ∉ l₁ → a ∉ l₂ → l₁ ++ a :: r₁ = l₂ ++ a :: r₂ → l₁ = l₂ ∧ r₁ = r₂
  | [], [], _, _, _, _, h => ⟨rfl, (List.cons.inj h).2⟩
  | [], x :: l₂, _, _, _, h₂, h => absurd ((List.cons.inj h).1 ▸ List.mem_cons_self) h₂
  | x :: l₁, [], _, _, h₁, _, h => absurd ((List.cons.inj h).1 ▸ List.mem_cons_self) h₁
  | x :: l₁, y :: l₂, _, _, h₁, h₂, h => by
    simp only [List.cons_append, List.cons.injEq] at h
    obtain ⟨rfl, h⟩ := h
    obtain ⟨rfl, rfl⟩ := append_cons_inj_of_not_mem (fun hl => h₁ (List.mem_cons_of_mem x hl))
      (fun hl => h₂ (List.mem_cons_of_mem x hl)) h
    exact ⟨rfl, rfl⟩

end Lines

/-- At the delimiter `ReadSlice` returns a line up to its first delimiter; otherwise what it
returns holds no delimiter. -/
theorem readSlice_line (delim : UInt8) (b : Reader) :
    ((readSlice delim b).2.1 = .delim →
      ∃ line, (readSlice delim b).1 = line ++ [delim] ∧ delim ∉ line) ∧
    ((readSlice delim b).2.1 ≠ .delim → delim ∉ (readSlice delim b).1) := by
  fun_induction readSlice delim b with
  | case1 b i h =>
    obtain ⟨hsplit, hline⟩ := take_of_idxOf? h
    exact ⟨fun _ => ⟨_, hsplit, hline⟩, fun hne => absurd rfl hne⟩
  | case2 b hidx _ _ => exact ⟨(fun h => nomatch h), fun _ => List.idxOf?_eq_none_iff.mp hidx⟩
  | case3 b hidx _ _ => exact ⟨(fun h => nomatch h), fun _ => List.idxOf?_eq_none_iff.mp hidx⟩
  | case4 b _ _ _ ih => exact ih

/-- When `ReadString` reports no error it returns a line up to its first delimiter. -/
theorem readString_line (delim : UInt8) (b : Reader) :
    (readString delim b).2.1 = none → ∃ line, (readString delim b).1 = line ++ [delim] ∧ delim ∉ line := by
  fun_induction readString delim b with
  | case1 b frag b' h =>
    have hline := (readSlice_line delim b).1
    rw [h] at hline
    exact fun _ => hline rfl
  | case2 b frag e b' h => exact fun h => nomatch h
  | case3 b frag b' h r ih =>
    intro herr
    have hfrag := (readSlice_line delim b).2
    rw [h] at hfrag
    obtain ⟨line, hdata, hline⟩ := ih herr
    refine ⟨frag ++ line, by rw [hdata, List.append_assoc], ?_⟩
    rw [List.mem_append, not_or]
    exact ⟨hfrag (fun h => nomatch h), hline⟩

/-- When `ReadString` reports an error, what it returns holds no delimiter. -/
theorem readString_error (delim : UInt8) (b : Reader) :
    (readString delim b).2.1 ≠ none → delim ∉ (readString delim b).1 := by
  fun_induction readString delim b with
  | case1 b frag b' h => exact fun h => absurd rfl h
  | case2 b frag e b' h =>
    have hfrag := (readSlice_line delim b).2
    rw [h] at hfrag
    exact fun _ => hfrag (fun h => nomatch h)
  | case3 b frag b' h r ih =>
    intro herr
    have hfrag := (readSlice_line delim b).2
    rw [h] at hfrag
    rw [List.mem_append, not_or]
    exact ⟨hfrag (fun h => nomatch h), ih herr⟩

/-! ## Connections aligned with the lines -/

section Fill

variable {b : Reader} {c : List UInt8} {cs : List (List UInt8)}

theorem fill_of_nil (h : b.rd.chunks = []) : fill b = ⟨b.buf, b.rd, some .eof⟩ := by
  show fillLoop (99 + 1) b = _
  rw [fillLoop, ChunkReader.read, h]
  simp only [List.append_nil]

theorem fill_of_le (h : b.rd.chunks = c :: cs) (hc : c ≠ [])
    (hroom : c.length ≤ defaultBufSize - b.buf.length) :
    fill b = ⟨b.buf ++ c, ⟨cs⟩, b.err⟩ := by
  show fillLoop (99 + 1) b = _
  rw [fillLoop, ChunkReader.read, h]
  simp only [if_pos hroom, if_neg hc]

theorem fill_of_lt (h : b.rd.chunks = c :: cs) (hroom : 0 < defaultBufSize - b.buf.length)
    (hlt : defaultBufSize - b.buf.length < c.length) :
    fill b = ⟨b.buf ++ c.take (defaultBufSize - b.buf.length),
      ⟨c.drop (defaultBufSize - b.buf.length) :: cs⟩, b.err⟩ := by
  have hne : c.take (defaultBufSize - b.buf.length) ≠ [] := by
    rw [← List.length_pos_iff, List.length_take]
    omega
  show fillLoop (99 + 1) b = _
  rw [fillLoop, ChunkReader.read, h]
  simp only [if_neg (Nat.not_le.mpr hlt), if_neg hne]

end Fill

/-- A reader over an aligned connection, as `ReadString` keeps it: its buffer holds the
delimiter at most as its last byte, and a pending error is the end of the connection. -/
structure Reader.Aligned (delim : UInt8) (b : Reader) : Prop where
  buf : delim ∉ b.buf.dropLast
  rd : b.rd.Aligned delim
  err : ∀ e, b.err = some e → e = .eof ∧ b.rd.chunks = []

theorem newReader_aligned {delim : UInt8} {r : ChunkReader} (hr : r.Aligned delim) :
    (newReader r).Aligned delim :=
  ⟨List.not_mem_nil, hr, fun _ h => nomatch h⟩

/-- A `fill` of a buffer with room and no delimiter keeps a reader aligned: a read result that
fits ends the buffered bytes, and one that does not fit is cut before its last byte. -/
theorem Reader.Aligned.fill {delim : UInt8} {b : Reader} (hb : b.Aligned delim)
    (hbuf : delim ∉ b.buf) (hroom : b.buf.length < defaultBufSize) (herr : b.err = none) :
    (fill b).Aligned delim := by
  have hnot : ∀ l : List UInt8, delim ∉ l → delim ∉ l.dropLast :=
    fun l hl hmem => hl (List.mem_of_mem_dropLast hmem)
  rcases hrd : b.rd.chunks with _ | ⟨c, cs⟩
  · -- the end of the connection: the read reports `io.EOF`
    rw [fill_of_nil hrd]
    exact ⟨hnot _ hbuf, hb.rd, fun e he => ⟨(Option.some.inj he).symm, hrd⟩⟩
  · obtain ⟨hc, hlast⟩ := hb.rd c (by simp [hrd])
    have hcs : ChunkReader.Aligned delim ⟨cs⟩ := fun c' hc' => hb.rd c' (by simp [hrd, hc'])
    by_cases hfit : c.length ≤ defaultBufSize - b.buf.length
    · rw [fill_of_le hrd hc hfit]
      refine ⟨?_, hcs, fun e he => absurd (herr ▸ he) (by simp)⟩
      rw [List.dropLast_append_of_ne_nil hc, List.mem_append, not_or]
      exact ⟨hbuf, hlast⟩
    · -- the room is filled with a part of the result that stops before its last byte
      have hlt := Nat.lt_of_not_le hfit
      rw [fill_of_lt hrd (by omega) hlt]
      have htake : c.take (defaultBufSize - b.buf.length) <+: c.dropLast := by
        rw [List.dropLast_eq_take]
        exact (List.prefix_take_le_iff (by omega)).mpr (by omega)
      refine ⟨hnot _ ?_, fun c' hc' => ?_, fun e he => absurd (herr ▸ he) (by simp)⟩
      · rw [List.mem_append, not_or]
        exact ⟨hbuf, fun hmem => hlast (htake.subset hmem)⟩
      · rcases List.mem_cons.mp hc' with rfl | hc'
        · refine ⟨by rw [← List.length_pos_iff, List.length_drop]; omega, fun hmem => hlast ?_⟩
          rw [List.dropLast_drop_eq_drop_dropLast] at hmem
          exact List.mem_of_mem_drop hmem
        · exact hcs c' hc'

/-- `ReadSlice` on an aligned reader leaves its buffer empty and the reader aligned, and an
error it returns is the end of the connection. -/
theorem Reader.Aligned.readSlice {delim : UInt8} {b : Reader} :
    b.Aligned delim → (readSlice delim b).2.2.buf = [] ∧ (readSlice delim b).2.2.Aligned delim ∧
      ∀ e, (readSlice delim b).2.1 = .error e → e = .eof ∧ (readSlice delim b).2.2.rd.chunks = [] := by
  fun_induction Bufio.readSlice delim b with
  | case1 b i hidx =>
    -- the first delimiter is the last byte buffered, so nothing stays behind it
    intro hb
    have hdrop := drop_of_idxOf? hidx hb.buf
    refine ⟨hdrop, ⟨by simp [hdrop], hb.rd, hb.err⟩, fun e h => nomatch h⟩
  | case2 b hidx e he =>
    intro hb
    refine ⟨rfl, ⟨List.not_mem_nil, hb.rd, fun _ h => nomatch h⟩, fun e' h => ?_⟩
    cases h
    exact hb.err e he
  | case3 b hidx he hfull =>
    intro hb
    exact ⟨rfl, ⟨List.not_mem_nil, hb.rd, hb.err⟩, fun e h => nomatch h⟩
  | case4 b hidx he hfull ih =>
    intro hb
    exact ih (hb.fill (List.idxOf?_eq_none_iff.mp hidx) (Nat.lt_of_not_le hfull) he)

/-- `ReadString` on an aligned reader leaves its buffer empty and the connection aligned, and
an error it returns is the end of the connection. -/
theorem Reader.Aligned.readString {delim : UInt8} {b : Reader} :
    b.Aligned delim → (readString delim b).2.2.buf = [] ∧ (readString delim b).2.2.rd.Aligned delim ∧
      ∀ e, (readString delim b).2.1 = some e → e = .eof ∧ (readString delim b).2.2.rd.chunks = [] := by
  fun_induction Bufio.readString delim b with
  | case1 b frag b' h =>
    intro hb
    have hs := hb.readSlice
    rw [h] at hs
    exact ⟨hs.1, hs.2.1.rd, fun e he => nomatch he⟩
  | case2 b frag e b' h =>
    intro hb
    have hs := hb.readSlice
    rw [h] at hs
    refine ⟨hs.1, hs.2.1.rd, fun e' he => ?_⟩
    cases he
    exact hs.2.2 e rfl
  | case3 b frag b' h r ih =>
    intro hb
    have hs := hb.readSlice
    rw [h] at hs
    exact ih hs.2.1

/-- What a new reader over an aligned connection returns, with no byte lost and nothing left in
its buffer: a line up to its first delimiter, or, once the connection is at its end, `io.EOF`
with bytes that hold no delimiter. -/
theorem readString_newReader_of_aligned {delim : UInt8} {r : ChunkReader} (hr : r.Aligned delim) :
    ∃ data err b, readString delim (newReader r) = (data, err, b) ∧
      data ++ b.rd.bytes = r.bytes ∧ b.buf = [] ∧ b.rd.Aligned delim ∧
      ((err = none ∧ ∃ line, data = line ++ [delim] ∧ delim ∉ line) ∨
        (err = some .eof ∧ delim ∉ data ∧ b.rd.bytes = [])) := by
  obtain ⟨hbuf, hrd, herr⟩ := (newReader_aligned hr).readString
  have hpend := readString_pending delim (newReader r)
  have hdata := readString_line delim (newReader r)
  have hnone := readString_error delim (newReader r)
  rcases hres : readString delim (newReader r) with ⟨data, err, b⟩
  rw [hres] at hbuf hrd herr hpend hdata hnone
  dsimp only at hbuf hrd herr hpend hdata hnone
  simp only [Reader.pending, newReader, List.nil_append, hbuf] at hpend
  refine ⟨data, err, b, rfl, hpend, hbuf, hrd, ?_⟩
  rcases err with _ | e
  · exact .inl ⟨rfl, hdata rfl⟩
  · -- an error comes only at the end of the connection
    obtain ⟨rfl, hend⟩ := herr e rfl
    exact .inr ⟨rfl, hnone (by simp), by rw [ChunkReader.bytes, hend, List.flatten_nil]⟩

/-- On an aligned connection a new reader returns the first line and leaves nothing in its
buffer; the connection holds the rest, aligned as before. -/
theorem readString_of_aligned {delim : UInt8} {r : ChunkReader} {line rest : List UInt8}
    (hr : r.Aligned delim) (hline : delim ∉ line) (hbytes : r.bytes = line ++ delim :: rest) :
    ∃ b, readString delim (newReader r) = (line ++ [delim], none, b) ∧ b.buf = [] ∧
      b.rd.Aligned delim ∧ b.rd.bytes = rest := by
  obtain ⟨data, err, b, hres, hpend, hbuf, hrd, hcases⟩ := readString_newReader_of_aligned hr
  rw [hres]
  rw [hbytes] at hpend
  rcases hcases with ⟨rfl, line', rfl, hline'⟩ | ⟨rfl, hnd, hend⟩
  · rw [List.append_assoc, List.singleton_append] at hpend
    obtain ⟨rfl, hrest⟩ := append_cons_inj_of_not_mem hline' hline hpend
    exact ⟨b, rfl, hbuf, hrd, hrest⟩
  · -- at the end of the connection every byte was read, the delimiter among them
    rw [hend, List.append_nil] at hpend
    exact absurd (hpend ▸ List.mem_append_right line List.mem_cons_self) hnd

/-- On an aligned connection with nothing left, a new reader returns `io.EOF`. -/
theorem readString_of_aligned_nil {delim : UInt8} {r : ChunkReader} (hr : r.Aligned delim)
    (hbytes : r.bytes = []) : ∃ b, readString delim (newReader r) = ([], some .eof, b) := by
  obtain ⟨data, err, b, hres, hpend, -, -, hcases⟩ := readString_newReader_of_aligned hr
  rw [hbytes] at hpend
  obtain rfl : data = [] := (List.append_eq_nil_iff.mp hpend).1
  rcases hcases with ⟨-, line, hline, -⟩ | ⟨rfl, -, -⟩
  · exact absurd hline.symm (by simp)
  · exact ⟨b, hres⟩

/-- A first read result that fits the buffer and has bytes after its first delimiter: the
reader returns the line and keeps those bytes in its buffer, and the connection has moved on
to the next result. -/
theorem readString_of_chunk {delim : UInt8} {line extra : List UInt8} (cs : List (List UInt8))
    (hline : delim ∉ line) (hroom : (line ++ delim :: extra).length ≤ defaultBufSize) :
    readString delim (newReader ⟨(line ++ delim :: extra) :: cs⟩) =
      (line ++ [delim], none, ⟨extra, ⟨cs⟩, none⟩) := by
  have htake : (line ++ delim :: extra).take (line.length + 1) = line ++ [delim] := by
    simp [List.take_append]
  have hdrop : (line ++ delim :: extra).drop (line.length + 1) = extra := by
    simp [List.drop_append]
  apply readString_of_delim
  rw [readSlice_of_fill rfl rfl (by simp [newReader, defaultBufSize]),
    fill_of_le rfl (by simp) (by simpa [newReader] using hroom)]
  simp only [newReader, List.nil_append]
  rw [readSlice_of_idxOf? (idxOf?_append_cons extra hline), htake, hdrop]

end Bufio
