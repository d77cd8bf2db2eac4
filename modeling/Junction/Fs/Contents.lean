import Mathlib.Data.BitVec
import Mathlib.Data.List.Basic

/-!
# Reading and writing bytes held in memory (`memfs.h`, `seqfile.h`)

`MemInode::Read` and `SeqFile::Read` copy `std::min(buf.size(), size - *off)` bytes of a file into
the caller's buffer. The subtraction is in `size_t`, where an offset past the end wraps to a huge
count. `SeqFile::Read` first returns 0 for an offset that is negative or at or past the end;
`MemInode::Read` has no such guard. `MemInode::Write` grows `buf_` when
`buf_.size() - *off < buf.size()`, again in `size_t`.

Offsets are `off_t`, a `BitVec 64` read as signed; the bytes of a file are a list. A copy that
would touch a byte outside the file's bytes makes the model return `none`.

* `readAt_spec`: from an offset inside the file, the shared read copies `min(n, size - off)` bytes
  and advances the offset by as many.
* `MemInode.Read_past_end`, `MemInode.Write_past_end`: from an offset past the end, both copy
  outside `buf_`.
* `SeqFile.Read_copies_min`: with its guard, `SeqFile::Read` copies `min(n, max(0, size - off))`
  bytes from every offset that is not negative.
* `SeqFile.Read_chunks`: `SeqFile::Read` from every offset, and reading the whole output in chunks
  of any positive sizes.
* `MemInode.Write_spec`: from an offset inside the file, `Write` overwrites or extends it.
-/

namespace Junction

/-- The `n` bytes of `src` from index `off` on, or `none` when one of them lies outside `src`:
what `std::copy_n(src.begin() + off, n, ...)` reads. -/
def copyFrom? (src : List (BitVec 8)) (off : Int) (n : Nat) : Option (List (BitVec 8)) :=
  if n = 0 ∨ (0 ≤ off ∧ off + n ≤ src.length) then some ((src.drop off.toNat).take n) else none

/-- `dst` with the bytes from index `off` on overwritten by `src`, or `none` when one of them lies
outside `dst`: what `std::copy_n(src.begin(), src.size(), dst.begin() + off)` writes. -/
def copyInto? (dst src : List (BitVec 8)) (off : Int) : Option (List (BitVec 8)) :=
  if src = [] then some dst
  else if 0 ≤ off ∧ off + src.length ≤ dst.length then
    some (dst.take off.toNat ++ src ++ dst.drop (off.toNat + src.length))
  else none

/-- The read shared by `MemInode::Read` and `SeqFile::Read` past any guard: `n = std::min(buf.size(),
size - *off)` in `size_t`, copy `n` bytes from `src + *off` into `buf`, `*off += n`, return `n`.
The result is the new `buf`, the new `*off` and `n`. -/
def readAt (src buf : List (BitVec 8)) (off : BitVec 64) :
    Option (List (BitVec 8) × BitVec 64 × Nat) :=
  let n := min buf.length (BitVec.ofNat 64 src.length - off).toNat
  (copyFrom? src off.toInt n).map fun bytes => (bytes ++ buf.drop n, off + BitVec.ofNat 64 n, n)

namespace Memfs

/-- `MemInode::Read(buf, off)` on the contents `buf_`. -/
def MemInode.Read (buf_ buf : List (BitVec 8)) (off : BitVec 64) :
    Option (List (BitVec 8) × BitVec 64 × Nat) :=
  readAt buf_ buf off

/-- `SlabList::Resize(n)` (not among the sources): keep the first `n` bytes and add zero bytes up
to `n`. -/
def resize (buf_ : List (BitVec 8)) (n : Nat) : List (BitVec 8) :=
  buf_.take n ++ List.replicate (n - buf_.length) 0

/-- `MemInode::Write(buf, off)` on the contents `buf_`: when `buf_.size() - *off < buf.size()` in
`size_t` (checked again under the upgraded lock) grow `buf_` to `buf.size() + *off`; copy `buf` to
`buf_ + *off`; `*off += buf.size()`; return `buf.size()`. The result is the new `buf_`, the new
`*off` and the count. -/
def MemInode.Write (buf_ buf : List (BitVec 8)) (off : BitVec 64) :
    Option (List (BitVec 8) × BitVec 64 × Nat) :=
  let buf_ :=
    if (BitVec.ofNat 64 buf_.length - off).toNat < buf.length then
      if (BitVec.ofNat 64 buf_.length - off).toNat < buf.length then
        resize buf_ (BitVec.ofNat 64 buf.length + off).toNat
      else buf_
    else buf_
  (copyInto? buf_ buf off.toInt).map fun c => (c, off + BitVec.ofNat 64 buf.length, buf.length)

end Memfs

/-- `SeqFile::Read(buf, off)` on the output `output_`: nothing for an offset that is negative or at
or past the end, else the shared read. -/
def SeqFile.Read (output_ buf : List (BitVec 8)) (off : BitVec 64) :
    Option (List (BitVec 8) × BitVec 64 × Nat) :=
  if off.toInt < 0 ∨ output_.length ≤ off.toNat then some (buf, off, 0) else readAt output_ buf off

/-! ## Offsets inside the file -/

/-- An offset below `2 ^ 63` is its own signed value. -/
theorem toInt_of_lt {off : BitVec 64} (h : off.toNat < 2 ^ 63) : off.toInt = off.toNat := by
  rw [BitVec.toInt_eq_toNat_cond, if_pos (by omega)]

/-- The `size_t` difference `size - *off` when the offset lies in the file. -/
theorem toNat_size_sub {size : Nat} {off : BitVec 64} (hs : size < 2 ^ 64)
    (h : off.toNat ≤ size) : (BitVec.ofNat 64 size - off).toNat = size - off.toNat := by
  have hv : (BitVec.ofNat 64 size).toNat = size := by
    rw [BitVec.toNat_ofNat, Nat.mod_eq_of_lt hs]
  rw [BitVec.toNat_sub_of_le (BitVec.le_def.2 (by omega)), hv]

/-- **The shared read from an offset inside the file** copies `k = min(n, size - off)` bytes, the
bytes `src[off, off + k)`, and advances the offset by `k`. -/
theorem readAt_spec (src buf : List (BitVec 8)) (off : BitVec 64) (hsrc : src.length < 2 ^ 63)
    (hoff : off.toNat ≤ src.length) :
    readAt src buf off = some (((src.drop off.toNat).take (min buf.length (src.length - off.toNat)))
      ++ buf.drop (min buf.length (src.length - off.toNat)),
      off + BitVec.ofNat 64 (min buf.length (src.length - off.toNat)),
      min buf.length (src.length - off.toNat)) := by
  have hi := @toInt_of_lt off (by omega)
  rw [readAt, toNat_size_sub (by omega) hoff, copyFrom?, if_pos (.inr ⟨by omega, by omega⟩), hi]
  rfl

example : Memfs.MemInode.Read [1, 2] [0, 0] 2 = some ([0, 0], 2, 0) := by decide

namespace Memfs

/-! ## Offsets past the end -/

/-- The `size_t` difference `size - *off` when the offset lies past the end: at least `2 ^ 63`. -/
theorem toNat_size_sub_past {size : Nat} {off : BitVec 64} (h : size < off.toNat)
    (hoff : off.toNat < 2 ^ 63) : 2 ^ 63 ≤ (BitVec.ofNat 64 size - off).toNat := by
  have hv : (BitVec.ofNat 64 size).toNat = size := by
    rw [BitVec.toNat_ofNat, Nat.mod_eq_of_lt (by omega)]
  rw [BitVec.toNat_sub, hv]
  omega

/-- **`MemInode::Read` past the end of the file reads outside `buf_`**: the `size_t` count wraps, so
it copies `buf.size()` bytes from beyond the end. -/
theorem MemInode.Read_past_end (buf_ buf : List (BitVec 8)) (off : BitVec 64)
    (hoff : buf_.length < off.toNat) (hsmall : off.toNat < 2 ^ 63) (hbuf : buf ≠ [])
    (hlen : buf.length ≤ 2 ^ 63) : MemInode.Read buf_ buf off = none := by
  have hsub := toNat_size_sub_past hoff hsmall
  have hpos := List.length_pos.2 hbuf
  have hi := toInt_of_lt hsmall
  simp only [MemInode.Read, readAt, Option.map_eq_none', copyFrom?, hi]
  rw [if_neg (by omega)]

theorem MemInode.Read_past_end_at_one : ([] : List (BitVec 8)).length < (1 : BitVec 64).toNat ∧
    (1 : BitVec 64).toNat < 2 ^ 63 ∧ [(0 : BitVec 8)] ≠ [] ∧ [(0 : BitVec 8)].length ≤ 2 ^ 63 ∧
    MemInode.Read [] [0] 1 = none :=
  ⟨by decide, by decide, by decide, by decide,
    MemInode.Read_past_end [] [0] 1 (by decide) (by decide) (by decide) (by decide)⟩

/-- **`MemInode::Write` past the end of the file writes outside `buf_`**: the `size_t` check wraps,
so `buf_` is not grown before the copy. -/
theorem MemInode.Write_past_end (buf_ buf : List (BitVec 8)) (off : BitVec 64)
    (hoff : buf_.length < off.toNat) (hsmall : off.toNat < 2 ^ 63) (hbuf : buf ≠ [])
    (hlen : buf.length ≤ 2 ^ 63) : MemInode.Write buf_ buf off = none := by
  have hsub := toNat_size_sub_past hoff hsmall
  have hi := toInt_of_lt hsmall
  have hnot : ¬ (BitVec.ofNat 64 buf_.length - off).toNat < buf.length := by omega
  simp only [MemInode.Write, hnot, if_false, Option.map_eq_none', copyInto?, hbuf, hi]
  rw [if_neg (by omega)]

theorem MemInode.Write_past_end_at_one : ([] : List (BitVec 8)).length < (1 : BitVec 64).toNat ∧
    (1 : BitVec 64).toNat < 2 ^ 63 ∧ [(0 : BitVec 8)] ≠ [] ∧ [(0 : BitVec 8)].length ≤ 2 ^ 63 ∧
    MemInode.Write [] [0] 1 = none :=
  ⟨by decide, by decide, by decide, by decide,
    MemInode.Write_past_end [] [0] 1 (by decide) (by decide) (by decide) (by decide)⟩

end Memfs

/-! ## The guard of `SeqFile::Read` -/

/-- `SeqFile::Read` from every offset: nothing from a negative offset or one at or past the end,
else the shared read. -/
theorem SeqFile.Read_eq (output_ buf : List (BitVec 8)) (off : BitVec 64)
    (hout : output_.length < 2 ^ 63) :
    SeqFile.Read output_ buf off =
      if 0 ≤ off.toInt ∧ off.toNat < output_.length then
        some (((output_.drop off.toNat).take (min buf.length (output_.length - off.toNat)))
          ++ buf.drop (min buf.length (output_.length - off.toNat)),
          off + BitVec.ofNat 64 (min buf.length (output_.length - off.toNat)),
          min buf.length (output_.length - off.toNat))
      else some (buf, off, 0) := by
  unfold SeqFile.Read
  by_cases hg : off.toInt < 0 ∨ output_.length ≤ off.toNat
  · rw [if_pos hg, if_neg (by omega)]
  · have hn : off.toNat < 2 ^ 63 := by
      rw [BitVec.toInt_eq_toNat_cond] at hg
      split at hg <;> omega
    rw [if_neg hg, if_pos ⟨by rw [toInt_of_lt hn]; omega, by omega⟩]
    exact readAt_spec output_ buf off hout (by omega)

/-- **`SeqFile::Read` from any offset that is not negative** copies
`k = min(n, max(0, size - off))` bytes, the bytes `output_[off, off + k)`, and advances the offset
by `k`: past the end it copies nothing. -/
theorem SeqFile.Read_copies_min (output_ buf : List (BitVec 8)) (off : BitVec 64)
    (hout : output_.length < 2 ^ 63) (hoff : off.toNat < 2 ^ 63) :
    SeqFile.Read output_ buf off =
      some (((output_.drop off.toNat).take (min buf.length (output_.length - off.toNat)))
        ++ buf.drop (min buf.length (output_.length - off.toNat)),
        off + BitVec.ofNat 64 (min buf.length (output_.length - off.toNat)),
        min buf.length (output_.length - off.toNat)) := by
  rw [SeqFile.Read_eq _ _ _ hout]
  split
  · rfl
  · -- a nonnegative offset outside the file is at or past its end
    have hk : min buf.length (output_.length - off.toNat) = 0 := by
      rw [toInt_of_lt hoff] at *; omega
    simp [hk]

theorem SeqFile.Read_copies_min_at_one : ([1, 2] : List (BitVec 8)).length < 2 ^ 63 ∧
    (5 : BitVec 64).toNat < 2 ^ 63 ∧
    SeqFile.Read [1, 2] [0] 5 = some ((([1, 2] : List (BitVec 8)).drop 5).take (min 1 (2 - 5))
      ++ ([0] : List (BitVec 8)).drop (min 1 (2 - 5)), 5 + BitVec.ofNat 64 (min 1 (2 - 5)),
      min 1 (2 - 5)) :=
  ⟨by decide, by decide, SeqFile.Read_copies_min [1, 2] [0] 5 (by decide) (by decide)⟩

/-- A reader of the whole file: `Read` into buffers of `sizes 0`, `sizes 1`, ... bytes from `off`
until it returns 0, at most `fuel` times. The bytes it got, in order, or `none` if `fuel` runs out
first or a read fails. -/
def SeqFile.readUntilEnd (output_ : List (BitVec 8)) (sizes : Nat → Nat) :
    Nat → BitVec 64 → Option (List (BitVec 8))
  | 0, _ => none
  | fuel + 1, off =>
    match SeqFile.Read output_ (List.replicate (sizes 0) 0) off with
    | none => none
    | some (buf, off, n) =>
      if n = 0 then some []
      else (SeqFile.readUntilEnd output_ (fun i => sizes (i + 1)) fuel off).map (buf.take n ++ ·)

/-- Reading on from an offset `k` inside the file, with enough reads left, gets the rest of it. -/
theorem SeqFile.readUntilEnd_drop (output_ : List (BitVec 8)) (hout : output_.length < 2 ^ 63) :
    ∀ (fuel : Nat) (sizes : Nat → Nat) (k : Nat), (∀ i, 0 < sizes i) → k ≤ output_.length →
      output_.length - k < fuel →
      SeqFile.readUntilEnd output_ sizes fuel (BitVec.ofNat 64 k) = some (output_.drop k)
  | 0, _, _, _, _, hfuel => absurd hfuel (Nat.not_lt_zero _)
  | fuel + 1, sizes, k, hpos, hk, hfuel => by
    have hk64 : (BitVec.ofNat 64 k).toNat = k := by
      rw [BitVec.toNat_ofNat, Nat.mod_eq_of_lt (by omega)]
    have hi := toInt_of_lt (show (BitVec.ofNat 64 k).toNat < 2 ^ 63 by omega)
    rw [SeqFile.readUntilEnd, SeqFile.Read_eq _ _ _ hout, hk64, hi]
    by_cases hend : k < output_.length
    · have hc := hpos 0
      rw [if_pos ⟨by omega, hend⟩]
      simp only [List.length_replicate]
      rw [if_neg (by omega), ← BitVec.ofNat_add,
        SeqFile.readUntilEnd_drop output_ hout fuel _ _ (fun i => hpos (i + 1)) (by omega)
          (by omega), Option.map_some',
        List.take_append_of_le_length (by simp only [List.length_take, List.length_drop]; omega),
        List.take_take, min_self, ← List.drop_drop, List.take_append_drop]
    · rw [if_neg (fun h => hend h.2)]
      simp [List.drop_eq_nil_of_le (by omega : output_.length ≤ k)]

/-- **`SeqFile::Read` copies only bytes of its output, and chunked reads give back all of it**:
from every offset and into every buffer, `Read` copies `min(n, size - off)` bytes of the output
from a nonnegative offset inside it, advancing the offset by as many, and nothing otherwise; and
reading from offset 0 with buffers of any positive sizes until `Read` returns 0 gets exactly the
output, within `size + 1` reads. -/
theorem SeqFile.Read_chunks (output_ : List (BitVec 8)) (hout : output_.length < 2 ^ 63) :
    (∀ (buf : List (BitVec 8)) (off : BitVec 64), SeqFile.Read output_ buf off =
      if 0 ≤ off.toInt ∧ off.toNat < output_.length then
        some (((output_.drop off.toNat).take (min buf.length (output_.length - off.toNat)))
          ++ buf.drop (min buf.length (output_.length - off.toNat)),
          off + BitVec.ofNat 64 (min buf.length (output_.length - off.toNat)),
          min buf.length (output_.length - off.toNat))
      else some (buf, off, 0)) ∧
    ∀ sizes : Nat → Nat, (∀ i, 0 < sizes i) →
      SeqFile.readUntilEnd output_ sizes (output_.length + 1) 0 = some output_ :=
  ⟨fun buf off => SeqFile.Read_eq output_ buf off hout, fun sizes hpos =>
    SeqFile.readUntilEnd_drop output_ hout _ sizes 0 hpos (Nat.zero_le _) (by omega)⟩

theorem SeqFile.Read_chunks_of_three : ([1, 2, 3] : List (BitVec 8)).length < 2 ^ 63 ∧
    (∀ (buf : List (BitVec 8)) (off : BitVec 64), SeqFile.Read [1, 2, 3] buf off =
      if 0 ≤ off.toInt ∧ off.toNat < ([1, 2, 3] : List (BitVec 8)).length then
        some (((([1, 2, 3] : List (BitVec 8)).drop off.toNat).take (min buf.length (3 - off.toNat)))
          ++ buf.drop (min buf.length (3 - off.toNat)),
          off + BitVec.ofNat 64 (min buf.length (3 - off.toNat)), min buf.length (3 - off.toNat))
      else some (buf, off, 0)) ∧
    ∀ sizes : Nat → Nat, (∀ i, 0 < sizes i) →
      SeqFile.readUntilEnd [1, 2, 3] sizes (3 + 1) 0 = some [1, 2, 3] :=
  ⟨by decide, SeqFile.Read_chunks [1, 2, 3] (by decide)⟩

namespace Memfs

/-! ## `MemInode::Write` inside the file -/

/-- **`MemInode::Write` from an offset inside the file** makes the contents `buf_[0, off)`, then
`buf`, then what `buf_` had past `off + buf.size()`, advances the offset by `buf.size()` and
returns it. -/
theorem MemInode.Write_spec (buf_ buf : List (BitVec 8)) (off : BitVec 64)
    (hoff : off.toNat ≤ buf_.length) (hsmall : buf_.length + buf.length < 2 ^ 63) :
    MemInode.Write buf_ buf off = some (buf_.take off.toNat ++ buf ++
      buf_.drop (off.toNat + buf.length), off + BitVec.ofNat 64 buf.length, buf.length) := by
  have hsub := @toNat_size_sub buf_.length off (by omega) hoff
  have hi := @toInt_of_lt off (by omega)
  have hsum : (BitVec.ofNat 64 buf.length + off).toNat = buf.length + off.toNat := by
    rw [BitVec.toNat_add, BitVec.toNat_ofNat, Nat.mod_eq_of_lt (by omega),
      Nat.mod_eq_of_lt (by omega)]
  by_cases hbuf : buf = []
  · subst hbuf
    simp [MemInode.Write, copyInto?]
  simp only [MemInode.Write, hsub, hsum, copyInto?, hbuf, if_false, hi, Int.toNat_ofNat]
  by_cases hshort : buf_.length - off.toNat < buf.length
  · have hres : Memfs.resize buf_ (buf.length + off.toNat) =
        buf_ ++ List.replicate (buf.length + off.toNat - buf_.length) 0 := by
      rw [Memfs.resize, List.take_of_length_le (by omega)]
    simp only [if_pos hshort, hres, List.length_append, List.length_replicate]
    rw [if_pos (by omega), List.take_append_of_le_length hoff,
      List.drop_eq_nil_of_le (by simp only [List.length_append, List.length_replicate]; omega),
      List.drop_eq_nil_of_le (by omega : buf_.length ≤ off.toNat + buf.length)]
    rfl
  · rw [if_neg hshort, if_pos (by omega)]
    rfl

theorem MemInode.Write_spec_at_one : (1 : BitVec 64).toNat ≤ ([1, 2] : List (BitVec 8)).length ∧
    ([1, 2] : List (BitVec 8)).length + ([7, 7, 7] : List (BitVec 8)).length < 2 ^ 63 ∧
    MemInode.Write [1, 2] [7, 7, 7] 1 = some ([1] ++ [7, 7, 7] ++ [], 1 + BitVec.ofNat 64 3, 3) :=
  ⟨by decide, by decide, MemInode.Write_spec [1, 2] [7, 7, 7] 1 (by decide) (by decide)⟩

end Memfs

end Junction
