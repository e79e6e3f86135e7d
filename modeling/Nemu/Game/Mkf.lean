/-
# MKF archives

The archive functions of `palcommon.c`, with `Decompress` for the chunks, and how
`res.c` loads a sprite with them. An archive starts with the offsets of its
chunks, and of its end; the first one also says how many there are. What an
`fread` does not read stays as it was, and `fseek` to a negative offset fails.
`malloc` returns memory with anything in it, or `NULL`.

Key definitions: `FileStream`, `mkfReadChunk`, `mkfDecompressChunk`, `loadSprite`, `archive`.
Key theorems: `archive_split`, `mkfReadChunk_archive`, `mkfDecompressChunk_archive`, `loadSprite_archive`.
-/
import Nemu.Game.Yj1Format

namespace Nemu

namespace Mkf

open Bytes Yj1

/-! ### Files -/

/-- A file that is open, and the position in it. -/
structure FileStream where
  bytes : List Byte
  pos : ℕ

namespace FileStream

variable (fp : FileStream)

/-- `fseek` from the start; the offset is a `long`. -/
def fseek (offset : Word) : FileStream := if offset.toInt < 0 then fp else { fp with pos := offset.toNat }

/-- `fread` of 4 bytes into a variable. -/
def freadWord (old : Word) : Word × FileStream :=
  (word (fun i => (fp.bytes[fp.pos + i]?).getD (byte old i)) 4, { fp with pos := fp.pos + min 4 (fp.bytes.length - fp.pos) })

/-- `fread` of `n` bytes into a buffer. -/
def fread (n : ℕ) (buf : List Byte) : Except Stop (List Byte × FileStream) :=
  let read := (fp.bytes.drop fp.pos).take n
  if read.length ≤ buf.length then return (read ++ buf.drop read.length, { fp with pos := fp.pos + read.length })
  else throw .outside

end FileStream

section Functions

variable (junk : Word)

/-- `PAL_MKFGetChunkCount`; `junk` is in the variable that is not initialised. -/
def mkfGetChunkCount : Option FileStream → Word × Option FileStream
  | none => (0, none)
  | some fp =>
    let (iNumChunk, fp) := (fp.fseek 0).freadWord junk
    ((iNumChunk - 4).sdiv 4, some fp)

/-- The offsets of a chunk and of the next one. -/
def readOffsets (uiChunkNum : Word) (fp : FileStream) : Word × Word × FileStream :=
  let (uiOffset, fp) := (fp.fseek (4 * uiChunkNum)).freadWord 0
  let (uiNextOffset, fp) := fp.freadWord 0
  (uiOffset, uiNextOffset, fp)

/-- `PAL_MKFGetChunkSize`. -/
def mkfGetChunkSize (uiChunkNum : Word) (fp : Option FileStream) : Word × Option FileStream :=
  let (uiChunkCount, fp) := mkfGetChunkCount junk fp
  match fp with
  | none => (-1, none)
  | some fp =>
    if uiChunkNum ≥ uiChunkCount then (-1, some fp)
    else
      let (uiOffset, uiNextOffset, fp) := readOffsets uiChunkNum fp
      (uiNextOffset - uiOffset, some fp)

/-- `PAL_MKFReadChunk`: what it returns, and the buffer. -/
def mkfReadChunk (lpBuffer : List Byte) (uiBufferSize uiChunkNum : Word) :
    Option FileStream → Except Stop (Word × List Byte × Option FileStream)
  | none => return (-1, lpBuffer, none)
  | some fp =>
    if uiBufferSize = 0 then return (-1, lpBuffer, some fp)
    else
      let (uiChunkCount, fp) := mkfGetChunkCount junk (some fp)
      match fp with
      | none => return (-1, lpBuffer, none)
      | some fp =>
        if uiChunkNum ≥ uiChunkCount then return (-1, lpBuffer, some fp)
        else
          let (uiOffset, uiNextOffset, fp) := readOffsets uiChunkNum fp
          let uiChunkLen := uiNextOffset - uiOffset
          if uiChunkLen > uiBufferSize then return (-2, lpBuffer, some fp)
          else if uiChunkLen ≠ 0 then do
            let (buf, fp) ← (fp.fseek uiOffset).fread uiChunkLen.toNat lpBuffer
            return (uiChunkLen, buf, some fp)
          else return (-1, lpBuffer, some fp)

/-- `PAL_MKFGetDecompressedSize`; `junk'` is in its buffer. -/
def mkfGetDecompressedSize (junk' : Word) (uiChunkNum : Word) : Option FileStream → Word × Option FileStream
  | none => (-1, none)
  | some fp =>
    let (uiChunkCount, fp) := mkfGetChunkCount junk (some fp)
    match fp with
    | none => (-1, none)
    | some fp =>
      if uiChunkNum ≥ uiChunkCount then (-1, some fp)
      else
        let (uiOffset, fp) := (fp.fseek (4 * uiChunkNum)).freadWord junk'
        let (signature, fp) := (fp.fseek uiOffset).freadWord junk'
        let (length, fp) := fp.freadWord junk'
        (if signature ≠ 0x315f4a59 then -1 else length, some fp)

/-- `PAL_MKFDecompressChunk`. -/
def mkfDecompressChunk (malloc : ℕ → Option (List Byte)) (lpBuffer : List Byte) (uiBufferSize uiChunkNum : Word)
    (fp : Option FileStream) : Except Stop (Word × List Byte × Option FileStream) :=
  let (len, fp) := mkfGetChunkSize junk uiChunkNum fp
  if len.toInt ≤ 0 then return (len, lpBuffer, fp)
  else
    match malloc len.toNat with
    | none => return (-3, lpBuffer, fp)
    | some buf => do
      let (_, buf, fp) ← mkfReadChunk junk buf len uiChunkNum fp
      let (len, lpBuffer) ← decompress buf malloc lpBuffer uiBufferSize
      return (len, lpBuffer, fp)

/-- `UTIL_malloc`; `none` if it terminates. -/
def utilMalloc (malloc : ℕ → Option (List Byte)) (bufferSize : Word) : Option (List Byte) :=
  if bufferSize = 0 then none else malloc bufferSize.toNat

/-- How `PAL_LoadResources` loads a sprite: memory of the size that it is decompressed to, and then
the chunk. It returns what the last call returned, and the memory. -/
def loadSprite (junk' : Word) (malloc : ℕ → Option (List Byte)) (n : Word) (fp : Option FileStream) :
    Except Stop (Option (Word × List Byte × Option FileStream)) :=
  let (l, fp) := mkfGetDecompressedSize junk junk' n fp
  match utilMalloc malloc l with
  | none => return none
  | some sprite => do
    let r ← mkfDecompressChunk junk malloc sprite l n fp
    return some r

end Functions

/-! ### Archives -/

/-- The bytes of a word, the lowest first. -/
def wordBytes (w : Word) : List Byte := [byte w 0, byte w 1, byte w 2, byte w 3]

/-- Where chunk `i` starts. -/
def offset (chunks : List (List Byte)) (i : ℕ) : ℕ := 4 * (chunks.length + 1) + (chunks.take i).flatten.length

/-- The offsets of the chunks and of the end, and the chunks. -/
def archive (chunks : List (List Byte)) : List Byte :=
  ((List.range (chunks.length + 1)).flatMap fun i => wordBytes (BitVec.ofNat 32 (offset chunks i))) ++ chunks.flatten

/-! ### Words of a file -/

section Words

variable {fp : FileStream} {w : Word}

/-- The four bytes of the word are at `i`. -/
def WordAt (bytes : List Byte) (i : ℕ) (w : Word) : Prop := ∀ k < 4, bytes[i + k]? = some (byte w k)

theorem WordAt.inside {bytes : List Byte} {i : ℕ} (h : WordAt bytes i w) : i + 4 ≤ bytes.length := by
  obtain ⟨hlt, -⟩ := List.getElem?_eq_some_iff.mp (h 3 (by norm_num))
  omega

theorem freadWord_of_wordAt {bytes : List Byte} {pos : ℕ} (h : WordAt bytes pos w) (old : Word) :
    (⟨bytes, pos⟩ : FileStream).freadWord old = (w, ⟨bytes, pos + 4⟩) := by
  have hin := h.inside
  have hword : word (fun i => (bytes[pos + i]?).getD (byte old i)) 4 = w := by
    refine ext_bytes fun i hi => ?_
    rw [byte_word _ _ _ hi, if_pos hi, h i hi, Option.getD_some]
  have hmin : min 4 (bytes.length - pos) = 4 := Nat.min_eq_left (by omega)
  rw [FileStream.freadWord, hword, hmin]

/-- A word of a part of the file. -/
theorem WordAt.append {pre bytes post : List Byte} {i : ℕ} (h : WordAt bytes i w) :
    WordAt (pre ++ bytes ++ post) (pre.length + i) w := by
  have hin := h.inside
  intro k hk
  rw [List.getElem?_append_left (by rw [List.length_append]; omega), List.getElem?_append_right (by omega),
    Nat.add_assoc, Nat.add_sub_cancel_left, h k hk]

theorem byte_ofNat (v : ℕ) {k : ℕ} (hk : k < 4) : byte (BitVec.ofNat 32 v) k = BitVec.ofNat 8 (v / 256 ^ k) := by
  apply BitVec.eq_of_toNat_eq
  have hpow : 2 ^ (8 * k) = 256 ^ k := by rw [pow_mul]; norm_num
  rw [byte, BitVec.toNat_setWidth, BitVec.toNat_ushiftRight, BitVec.toNat_ofNat, BitVec.toNat_ofNat, Nat.shiftRight_eq_div_pow, hpow]
  interval_cases k <;> omega

theorem toNat_ofNat_of_lt {v : ℕ} (h : v < 2 ^ 31) : (BitVec.ofNat 32 v).toNat = v := by
  rw [BitVec.toNat_ofNat, Nat.mod_eq_of_lt (by omega)]

theorem fseek_ofNat {v : ℕ} (h : v < 2 ^ 31) : fp.fseek (BitVec.ofNat 32 v) = { fp with pos := v } := by
  have hpos : ¬(BitVec.ofNat 32 v).toInt < 0 := by
    rw [BitVec.toInt_eq_toNat_of_lt (by rw [toNat_ofNat_of_lt h]; omega)]
    omega
  rw [FileStream.fseek, if_neg hpos, toNat_ofNat_of_lt h]

/-- To an entry of the table. -/
theorem fseek_entry {n : Word} (h : 4 * n.toNat < 2 ^ 31) : fp.fseek (4 * n) = { fp with pos := 4 * n.toNat } := by
  have hmul : 4 * n = BitVec.ofNat 32 (4 * n.toNat) := by
    apply BitVec.eq_of_toNat_eq
    rw [BitVec.toNat_mul, BitVec.toNat_ofNat]
    rfl
  rw [hmul, fseek_ofNat h]

end Words

/-! ### Tables -/

section Tables

variable {α β : Type} {f : α → List β} {n : ℕ}

theorem length_table (hf : ∀ x, (f x).length = n) (xs : List α) : (xs.flatMap f).length = n * xs.length := by
  induction xs with
  | nil => rfl
  | cons x xs ih => rw [List.flatMap_cons, List.length_append, ih, hf, List.length_cons, Nat.mul_succ, Nat.add_comm]

/-- The entries of a table have their places. -/
theorem getElem?_table (hf : ∀ x, (f x).length = n) {xs : List α} {i k : ℕ} (hi : i < xs.length) (hk : k < n) :
    (xs.flatMap f)[n * i + k]? = (f xs[i])[k]? := by
  induction xs generalizing i with
  | nil => exact absurd hi (Nat.not_lt_zero i)
  | cons x xs ih =>
    rw [List.flatMap_cons]
    cases i with
    | zero => rw [Nat.mul_zero, Nat.zero_add, List.getElem?_append_left (by rwa [hf]), List.getElem_cons_zero]
    | succ i =>
      have hplace : n * (i + 1) + k = (f x).length + (n * i + k) := by
        rw [hf, Nat.mul_succ]
        omega
      rw [hplace, List.getElem?_append_right (by omega), Nat.add_sub_cancel_left, List.getElem_cons_succ]
      exact ih (by rw [List.length_cons] at hi; omega)

/-- A list of parts, with one of them apart. -/
theorem flatten_split {parts : List (List β)} {i : ℕ} (h : i < parts.length) :
    parts.flatten = (parts.take i).flatten ++ parts[i] ++ (parts.drop (i + 1)).flatten := by
  rw [List.append_assoc, ← List.flatten_cons, ← List.drop_eq_getElem_cons h, ← List.flatten_append, List.take_append_drop]

end Tables

/-! ### What is in an archive -/

section Archive

variable {chunks : List (List Byte)} {i : ℕ}

theorem length_wordBytes (w : Word) : (wordBytes w).length = 4 := rfl

theorem offset_succ (h : i < chunks.length) : offset chunks (i + 1) = offset chunks i + chunks[i].length := by
  rw [offset, offset, List.take_succ_eq_append_getElem h, List.flatten_append, List.length_append, List.flatten_singleton, Nat.add_assoc]

theorem offset_le (chunks : List (List Byte)) (i : ℕ) : offset chunks i ≤ 4 * (chunks.length + 1) + chunks.flatten.length := by
  have hsplit : chunks.flatten.length = (chunks.take i).flatten.length + (chunks.drop i).flatten.length := by
    rw [← List.length_append, ← List.flatten_append, List.take_append_drop]
  rw [offset]
  omega

theorem length_archive (chunks : List (List Byte)) :
    (archive chunks).length = 4 * (chunks.length + 1) + chunks.flatten.length := by
  rw [archive, List.length_append, length_table fun _ => length_wordBytes _, List.length_range]

theorem wordAt_offset (hi : i ≤ chunks.length) : WordAt (archive chunks) (4 * i) (BitVec.ofNat 32 (offset chunks i)) := by
  intro k hk
  have hlen := length_table (f := fun i => wordBytes (BitVec.ofNat 32 (offset chunks i))) (fun _ => length_wordBytes _) (List.range (chunks.length + 1))
  have hrange : i < (List.range (chunks.length + 1)).length := by
    rw [List.length_range]
    omega
  rw [archive, List.getElem?_append_left (by rw [hlen, List.length_range]; omega), getElem?_table (fun _ => length_wordBytes _) hrange hk,
    List.getElem_range]
  interval_cases k <;> rfl

/-- A chunk is at its offset. -/
theorem archive_split (h : i < chunks.length) :
    ∃ pre post, archive chunks = pre ++ chunks[i] ++ post ∧ pre.length = offset chunks i := by
  refine ⟨((List.range (chunks.length + 1)).flatMap fun i => wordBytes (BitVec.ofNat 32 (offset chunks i))) ++ (chunks.take i).flatten,
    (chunks.drop (i + 1)).flatten, ?_, ?_⟩
  · rw [archive, flatten_split h]
    simp only [List.append_assoc]
  · rw [List.length_append, length_table fun _ => length_wordBytes _, List.length_range, offset]

theorem drop_take_archive (h : i < chunks.length) :
    ((archive chunks).drop (offset chunks i)).take chunks[i].length = chunks[i] := by
  obtain ⟨pre, post, happ, hlen⟩ := archive_split h
  rw [happ, ← hlen, List.append_assoc, List.drop_left, List.take_left]

end Archive

/-! ### The functions on an archive -/

section Reading

variable {chunks : List (List Byte)} {i : ℕ} (junk : Word) (pos : ℕ)

theorem chunkCount_archive (hsize : (archive chunks).length < 2 ^ 31) :
    mkfGetChunkCount junk (some ⟨archive chunks, pos⟩) = (BitVec.ofNat 32 chunks.length, some ⟨archive chunks, 4⟩) := by
  rw [length_archive] at hsize
  have hword := wordAt_offset (Nat.zero_le chunks.length)
  have hoff : offset chunks 0 = 4 * (chunks.length + 1) := by simp [offset]
  have hseek : (⟨archive chunks, pos⟩ : FileStream).fseek 0 = ⟨archive chunks, 0⟩ := fseek_ofNat (by norm_num)
  have hread := freadWord_of_wordAt hword junk
  rw [hoff] at hread
  have hcount : (BitVec.ofNat 32 (4 * (chunks.length + 1)) - 4).sdiv 4 = BitVec.ofNat 32 chunks.length := by
    have hsub : BitVec.ofNat 32 (4 * (chunks.length + 1)) - 4 = BitVec.ofNat 32 (4 * chunks.length) := by
      apply BitVec.eq_of_toNat_eq
      rw [BitVec.toNat_sub, BitVec.toNat_ofNat, BitVec.toNat_ofNat]
      simp
      omega
    have hmsb : (BitVec.ofNat 32 (4 * chunks.length)).msb = false := by
      rw [BitVec.msb_eq_false_iff_two_mul_lt, toNat_ofNat_of_lt (by omega)]
      omega
    have hmsb' : (4 : Word).msb = false := rfl
    rw [hsub, BitVec.sdiv_eq, hmsb, hmsb']
    apply BitVec.eq_of_toNat_eq
    rw [BitVec.udiv_eq, BitVec.toNat_udiv, toNat_ofNat_of_lt (by omega), toNat_ofNat_of_lt (by omega)]
    simp
  rw [mkfGetChunkCount, hseek]
  dsimp only
  rw [hread]
  dsimp only
  rw [hcount]

theorem readOffsets_archive (hsize : (archive chunks).length < 2 ^ 31) {n : Word} (hn : n.toNat < chunks.length) :
    readOffsets n ⟨archive chunks, pos⟩ = (BitVec.ofNat 32 (offset chunks n.toNat),
      BitVec.ofNat 32 (offset chunks (n.toNat + 1)), ⟨archive chunks, 4 * n.toNat + 4 + 4⟩) := by
  rw [length_archive] at hsize
  have hfirst := freadWord_of_wordAt (wordAt_offset hn.le) 0
  have hnext : WordAt (archive chunks) (4 * n.toNat + 4) (BitVec.ofNat 32 (offset chunks (n.toNat + 1))) :=
    wordAt_offset (Nat.succ_le_of_lt hn)
  have hsecond := freadWord_of_wordAt hnext 0
  rw [readOffsets, fseek_entry (by omega)]
  dsimp only
  rw [hfirst]
  dsimp only
  rw [hsecond]

theorem ofNat_ge (hsize : (archive chunks).length < 2 ^ 31) (n : Word) : n ≥ BitVec.ofNat 32 chunks.length ↔ chunks.length ≤ n.toNat := by
  rw [length_archive] at hsize
  rw [ge_iff_le, BitVec.le_def, toNat_ofNat_of_lt (by omega)]

theorem chunkLength_archive (hi : i < chunks.length) :
    BitVec.ofNat 32 (offset chunks (i + 1)) - BitVec.ofNat 32 (offset chunks i) = BitVec.ofNat 32 chunks[i].length := by
  apply BitVec.eq_of_toNat_eq
  rw [offset_succ hi, BitVec.toNat_sub, BitVec.toNat_ofNat, BitVec.toNat_ofNat, BitVec.toNat_ofNat]
  omega

theorem length_chunk_lt (hsize : (archive chunks).length < 2 ^ 31) (hi : i < chunks.length) : chunks[i].length < 2 ^ 31 := by
  rw [length_archive] at hsize
  have hle := offset_le chunks (i + 1)
  rw [offset_succ hi] at hle
  omega

theorem offset_lt (hsize : (archive chunks).length < 2 ^ 31) (i : ℕ) : offset chunks i < 2 ^ 31 := by
  rw [length_archive] at hsize
  exact (offset_le chunks i).trans_lt hsize

theorem mkfGetChunkSize_archive (hsize : (archive chunks).length < 2 ^ 31) (n : Word) :
    ∃ pos', mkfGetChunkSize junk n (some ⟨archive chunks, pos⟩) =
      (match chunks[n.toNat]? with
        | none => -1
        | some c => BitVec.ofNat 32 c.length, some ⟨archive chunks, pos'⟩) := by
  unfold mkfGetChunkSize
  rw [chunkCount_archive _ _ hsize]
  dsimp only
  by_cases hn : n.toNat < chunks.length
  · rw [if_neg (by rw [ofNat_ge hsize]; omega), readOffsets_archive _ hsize hn]
    dsimp only
    rw [chunkLength_archive hn, List.getElem?_eq_getElem hn]
    exact ⟨_, rfl⟩
  · rw [if_pos ((ofNat_ge hsize n).mpr (not_lt.mp hn)), List.getElem?_eq_none (not_lt.mp hn)]
    exact ⟨_, rfl⟩

/-- What a read of chunk `n` into a buffer is for: what is returned, and the buffer after it. -/
def chunkRead (chunks : List (List Byte)) (buf : List Byte) (size n : Word) : Word × List Byte :=
  match chunks[n.toNat]? with
  | none => (-1, buf)
  | some c =>
    if size = 0 then (-1, buf)
    else if c.length > size.toNat then (-2, buf)
    else if c = [] then (-1, buf)
    else (BitVec.ofNat 32 c.length, c ++ buf.drop c.length)

/-- The offsets of the chunk are read, and then the chunk. -/
theorem mkfReadChunk_eq (hsize : (archive chunks).length < 2 ^ 31) {buf : List Byte} {size : Word}
    (hbuf : size.toNat ≤ buf.length) (n : Word) :
    ∃ pos', mkfReadChunk junk buf size n (some ⟨archive chunks, pos⟩) =
      .ok ((chunkRead chunks buf size n).1, (chunkRead chunks buf size n).2, some ⟨archive chunks, pos'⟩) := by
  unfold mkfReadChunk chunkRead
  dsimp only
  by_cases hzero : size = 0
  · rw [if_pos hzero]
    cases chunks[n.toNat]? with
    | none => exact ⟨_, rfl⟩
    | some c =>
      dsimp only
      rw [if_pos hzero]
      exact ⟨_, rfl⟩
  rw [if_neg hzero, chunkCount_archive _ _ hsize]
  dsimp only
  by_cases hn : n.toNat < chunks.length
  · have hlen := toNat_ofNat_of_lt (length_chunk_lt hsize hn)
    rw [if_neg (by rw [ofNat_ge hsize]; omega), readOffsets_archive _ hsize hn]
    dsimp only
    rw [chunkLength_archive hn, List.getElem?_eq_getElem hn]
    dsimp only
    rw [if_neg hzero]
    by_cases hfits : chunks[n.toNat].length > size.toNat
    · have hgt : BitVec.ofNat 32 chunks[n.toNat].length > size := by rwa [gt_iff_lt, BitVec.lt_def, hlen]
      rw [if_pos hgt, if_pos hfits]
      exact ⟨_, rfl⟩
    · have hgt : ¬BitVec.ofNat 32 chunks[n.toNat].length > size := by rwa [gt_iff_lt, BitVec.lt_def, hlen]
      rw [if_neg hgt, if_neg hfits]
      by_cases hnil : chunks[n.toNat] = []
      · rw [if_pos hnil, hnil]
        exact ⟨_, rfl⟩
      · have hne : BitVec.ofNat 32 chunks[n.toNat].length ≠ 0 := by
          intro h
          rw [h] at hlen
          exact hnil (List.length_eq_zero_iff.mp hlen.symm)
        have hfread : (⟨archive chunks, offset chunks n.toNat⟩ : FileStream).fread chunks[n.toNat].length buf =
            .ok (chunks[n.toNat] ++ buf.drop chunks[n.toNat].length,
              ⟨archive chunks, offset chunks n.toNat + chunks[n.toNat].length⟩) := by
          rw [FileStream.fread, drop_take_archive hn, if_pos ((not_lt.mp hfits).trans hbuf)]
          rfl
        rw [if_pos hne, if_neg hnil, fseek_ofNat (offset_lt hsize _), hlen, hfread]
        exact ⟨_, rfl⟩
  · rw [if_pos ((ofNat_ge hsize n).mpr (not_lt.mp hn)), List.getElem?_eq_none (not_lt.mp hn)]
    exact ⟨_, rfl⟩

/-- **`PAL_MKFReadChunk`** on an archive, for every number and every size of the buffer. -/
theorem mkfReadChunk_archive (hsize : (archive chunks).length < 2 ^ 31) {buf : List Byte} {size : Word}
    (hbuf : size.toNat ≤ buf.length) (n : Word) :
    ∃ pos', mkfReadChunk junk buf size n (some ⟨archive chunks, pos⟩) =
      .ok ((chunkRead chunks buf size n).1, (chunkRead chunks buf size n).2, some ⟨archive chunks, pos'⟩) :=
  mkfReadChunk_eq junk pos hsize hbuf n

theorem mkfReadChunk_archive_two : ∃ pos', mkfReadChunk 7 (List.replicate 4 0) 4 1 (some ⟨archive [[1, 2], [3, 4, 5]], 9⟩) =
    .ok (3, [3, 4, 5, 0], some ⟨archive [[1, 2], [3, 4, 5]], pos'⟩) :=
  mkfReadChunk_archive 7 9 (by decide) (by decide) 1

section Sprites

variable (junk' : Word) {f : File} {trailing : List Byte} {malloc : ℕ → Option (List Byte)} {n : Word}

/-- The header of a file in an archive. -/
theorem wordAt_header {pre post : List Byte} (hsplit : archive chunks = pre ++ (f.bytes ++ trailing) ++ post) :
    WordAt (archive chunks) pre.length 0x315f4a59 ∧ WordAt (archive chunks) (pre.length + 4) (BitVec.ofNat 32 f.contents.length) := by
  have hsig : WordAt (f.bytes ++ trailing) 0 0x315f4a59 := by
    intro k hk
    interval_cases k <;> rfl
  have hsz : WordAt (f.bytes ++ trailing) 4 (BitVec.ofNat 32 f.contents.length) := by
    intro k hk
    rw [byte_ofNat _ hk]
    interval_cases k
    · rw [pow_zero, Nat.div_one]
      rfl
    · rfl
    · rfl
    · rw [show 256 ^ 3 = 65536 * 256 by norm_num, ← Nat.div_div_eq_div_mul]
      rfl
  rw [hsplit]
  exact ⟨hsig.append, hsz.append⟩

variable (hsize : (archive chunks).length < 2 ^ 31) (hchunk : chunks[n.toNat]? = some (f.bytes ++ trailing))

include hsize hchunk

theorem mkfGetDecompressedSize_archive :
    ∃ pos', mkfGetDecompressedSize junk junk' n (some ⟨archive chunks, pos⟩) =
      (BitVec.ofNat 32 f.contents.length, some ⟨archive chunks, pos'⟩) := by
  obtain ⟨hn, hget⟩ := List.getElem?_eq_some_iff.mp hchunk
  obtain ⟨pre, post, hsplit, hpre⟩ := archive_split hn
  rw [hget] at hsplit
  obtain ⟨hsig, hsz⟩ := wordAt_header hsplit
  rw [hpre] at hsig hsz
  have hlen := length_archive chunks
  have hoffset := freadWord_of_wordAt (wordAt_offset hn.le) junk'
  have hfirst := freadWord_of_wordAt hsig junk'
  have hsecond := freadWord_of_wordAt hsz junk'
  unfold mkfGetDecompressedSize
  dsimp only
  rw [chunkCount_archive _ _ hsize]
  dsimp only
  rw [if_neg (by rw [ofNat_ge hsize]; omega), fseek_entry (by omega), hoffset]
  dsimp only
  rw [fseek_ofNat (offset_lt hsize _), hfirst]
  dsimp only
  rw [hsecond]
  exact ⟨_, rfl⟩

/-- **`PAL_MKFDecompressChunk`** on a chunk that is a file. -/
theorem mkfDecompressChunk_archive (hf : f.Ok)
    (hmalloc : ∀ k ∈ [(f.bytes ++ trailing).length, treeSize f.nodes.length], ∃ buf, malloc k = some buf ∧ buf.length = k)
    {lpBuffer : List Byte} {size : Word}
    (hfits : f.contents.length ≤ size.toNat) (hroom : f.contents.length ≤ lpBuffer.length) :
    ∃ pos', mkfDecompressChunk junk malloc lpBuffer size n (some ⟨archive chunks, pos⟩) =
      .ok (BitVec.ofNat 32 f.contents.length, f.contents ++ lpBuffer.drop f.contents.length, some ⟨archive chunks, pos'⟩) := by
  obtain ⟨hn, hget⟩ := List.getElem?_eq_some_iff.mp hchunk
  obtain ⟨buf, hbuf, hlen⟩ := hmalloc (f.bytes ++ trailing).length (by simp)
  obtain ⟨tree, htree, -⟩ := hmalloc (treeSize f.nodes.length) (by simp)
  have hlt := length_chunk_lt hsize hn
  rw [hget] at hlt
  have htoNat := toNat_ofNat_of_lt hlt
  have hpos : 0 < (f.bytes ++ trailing).length := by
    have hheader := length_header f
    simp only [File.bytes, List.length_append]
    omega
  obtain ⟨pos₁, hchunkSize⟩ := mkfGetChunkSize_archive junk pos hsize n
  rw [hchunk] at hchunkSize
  dsimp only at hchunkSize
  have hbuffer : (BitVec.ofNat 32 (f.bytes ++ trailing).length).toNat ≤ buf.length := by rw [htoNat, hlen]
  obtain ⟨pos₂, hread⟩ := mkfReadChunk_eq junk pos₁ hsize hbuffer n
  have hne : BitVec.ofNat 32 (f.bytes ++ trailing).length ≠ 0 := by
    intro h
    rw [h] at htoNat
    exact hpos.ne htoNat
  have hspec : chunkRead chunks buf (BitVec.ofNat 32 (f.bytes ++ trailing).length) n =
      (BitVec.ofNat 32 (f.bytes ++ trailing).length, f.bytes ++ trailing) := by
    rw [chunkRead, hchunk]
    dsimp only
    rw [if_neg hne, if_neg (by rw [htoNat]; exact lt_irrefl _), if_neg (List.length_pos_iff.mp hpos), ← hlen, List.drop_length,
      List.append_nil]
  rw [hspec] at hread
  refine ⟨pos₂, ?_⟩
  have hint : ¬(BitVec.ofNat 32 (f.bytes ++ trailing).length).toInt ≤ 0 := by
    rw [BitVec.toInt_eq_toNat_of_lt (by rw [htoNat]; omega), htoNat]
    omega
  unfold mkfDecompressChunk
  rw [hchunkSize]
  dsimp only
  rw [if_neg hint, htoNat, hbuf]
  dsimp only
  rw [hread, ok_bind]
  dsimp only
  rw [hf.unpacked (Option.ne_none_iff_exists'.mpr ⟨tree, htree⟩) trailing lpBuffer hfits hroom]
  rfl

/-- The size, the memory and the chunk. -/
theorem loadSprite_file (hf : f.Ok) (hne : f.contents ≠ [])
    (hmalloc : ∀ k ∈ [f.contents.length, (f.bytes ++ trailing).length, treeSize f.nodes.length],
      ∃ buf, malloc k = some buf ∧ buf.length = k) :
    ∃ pos', loadSprite junk junk' malloc n (some ⟨archive chunks, pos⟩) =
      .ok (some (BitVec.ofNat 32 f.contents.length, f.contents, some ⟨archive chunks, pos'⟩)) := by
  have hlt : (BitVec.ofNat 32 f.contents.length).toNat = f.contents.length := by
    rw [BitVec.toNat_ofNat, Nat.mod_eq_of_lt hf.size]
  obtain ⟨sprite, hsprite, hlen⟩ := hmalloc f.contents.length (by simp)
  obtain ⟨pos₁, hsz⟩ := mkfGetDecompressedSize_archive junk pos junk' hsize hchunk
  obtain ⟨pos₂, hrun⟩ := mkfDecompressChunk_archive junk pos₁ hsize hchunk hf (fun k hk => hmalloc k (List.mem_cons_of_mem _ hk))
    hlt.ge hlen.ge
  have hzero : BitVec.ofNat 32 f.contents.length ≠ 0 := by
    intro h
    rw [h] at hlt
    exact hne (List.length_eq_zero_iff.mp hlt.symm)
  rw [← hlen, List.drop_length, List.append_nil, hlen] at hrun
  refine ⟨pos₂, ?_⟩
  unfold loadSprite
  rw [hsz]
  dsimp only
  rw [utilMalloc, if_neg hzero, hlt, hsprite]
  dsimp only
  rw [hrun]
  rfl

/-- **A sprite is loaded** as it was before it was packed: every archive with a file as chunk `n`, and
contents that are not empty, with memory for the contents, the chunk and the tree. -/
theorem loadSprite_archive (hf : f.Ok) (hne : f.contents ≠ [])
    (hmalloc : ∀ k ∈ [f.contents.length, (f.bytes ++ trailing).length, treeSize f.nodes.length],
      ∃ buf, malloc k = some buf ∧ buf.length = k) :
    ∃ pos', loadSprite junk junk' malloc n (some ⟨archive chunks, pos⟩) =
      .ok (some (BitVec.ofNat 32 f.contents.length, f.contents, some ⟨archive chunks, pos'⟩)) :=
  loadSprite_file junk pos junk' hsize hchunk hf hne hmalloc

end Sprites

theorem loadSprite_archive_overlap :
    ∃ pos', loadSprite 0 0 (fun k => some (List.replicate k 0xcc)) 1 (some ⟨archive [[], overlap.bytes ++ []], 0⟩) =
      .ok (some (7, [0x41, 0x42, 0x41, 0x42, 0x41, 0x42, 0x41], some ⟨archive [[], overlap.bytes ++ []], pos'⟩)) :=
  loadSprite_archive 0 0 0 (by decide) rfl ok_overlap (by decide) fun k _ => ⟨_, rfl, List.length_replicate⟩

end Reading

end Mkf

end Nemu
