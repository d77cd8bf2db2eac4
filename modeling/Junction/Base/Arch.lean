import Mathlib.Data.BitVec

/-!
# Machine words and page arithmetic

The kernel code computes addresses and sizes in 64-bit unsigned arithmetic (`uint64_t`,
`uintptr_t`, `size_t`): they are `BitVec 64` here, so that every sum wraps as it does on the
machine. Bytes are `BitVec 8`.

The helpers `AlignUp`, `PageAlign` and `PageAlignDown` come from `junction/base/arch.h`, which is
not part of the source; they are written out from what they compute. Each gets its `toNat` lemma
for the case where the sum does not wrap (`toNat_AlignUp`, `toNat_PageAlign`), and every later
proof goes through those.
-/

namespace Junction

/-- The page size of x86-64. -/
def kPageSize : Nat := 4096

/-- Modelled from the spec: `AlignUp` of `junction/base/arch.h`, absent from the source, rounds
`val` up to a multiple of the power of two `align` ("rounded up to a page"); the sum
`val + align - 1` is computed in 64 bits and wraps. -/
def AlignUp (val : BitVec 64) (align : Nat) : BitVec 64 :=
  BitVec.ofNat 64 ((val.toNat + (align - 1)) % 2 ^ 64 / align * align)

/-- Modelled from the spec: `PageAlign` of `junction/base/arch.h` is `AlignUp` to a page. -/
def PageAlign (val : BitVec 64) : BitVec 64 := AlignUp val kPageSize

/-- Modelled from the spec: `PageAlignDown` of `junction/base/arch.h` rounds down to a page. -/
def PageAlignDown (val : BitVec 64) : BitVec 64 :=
  BitVec.ofNat 64 (val.toNat / kPageSize * kPageSize)

/-- Rounding up in unbounded arithmetic: what `AlignUp` computes when nothing wraps. -/
def alignUp (n align : Nat) : Nat := (n + (align - 1)) / align * align

theorem toNat_AlignUp {val : BitVec 64} {align : Nat} (h : val.toNat + (align - 1) < 2 ^ 64) :
    (AlignUp val align).toNat = alignUp val.toNat align := by
  have hle : (val.toNat + (align - 1)) / align * align ≤ val.toNat + (align - 1) :=
    Nat.div_mul_le_self _ _
  rw [AlignUp, BitVec.toNat_ofNat, Nat.mod_eq_of_lt h, Nat.mod_eq_of_lt (by omega), alignUp]

theorem toNat_PageAlign {val : BitVec 64} (h : val.toNat + 4095 < 2 ^ 64) :
    (PageAlign val).toNat = alignUp val.toNat kPageSize :=
  toNat_AlignUp h

/-- Rounding up to a page never ends past the unbounded rounding: when the sum wraps, the result is
`0`. -/
theorem toNat_PageAlign_le (val : BitVec 64) :
    (PageAlign val).toNat ≤ alignUp val.toNat kPageSize := by
  unfold PageAlign AlignUp alignUp kPageSize
  rw [BitVec.toNat_ofNat]
  omega

theorem toNat_PageAlignDown (val : BitVec 64) :
    (PageAlignDown val).toNat = val.toNat / kPageSize * kPageSize := by
  have := val.isLt
  rw [PageAlignDown, BitVec.toNat_ofNat, Nat.mod_eq_of_lt (by unfold kPageSize; omega)]

theorem le_alignUp_page (n : Nat) : n ≤ alignUp n kPageSize := by
  unfold alignUp kPageSize; omega

theorem alignUp_page_lt (n : Nat) : alignUp n kPageSize < n + kPageSize := by
  unfold alignUp kPageSize; omega

theorem alignUp_page_mod (n : Nat) : alignUp n kPageSize % kPageSize = 0 := by
  unfold alignUp kPageSize; omega

theorem alignUp_page_mono {m n : Nat} (h : m ≤ n) : alignUp m kPageSize ≤ alignUp n kPageSize := by
  unfold alignUp kPageSize; omega

end Junction
