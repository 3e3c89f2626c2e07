import Mathlib.Tactic.Ring

/-!
# Reading a DVD through libdvdread

`readblock_dvdread` reads whole 2048-byte DVD blocks with the library call
`DVDReadRawBlocks` and reports the bytes read. It keeps the block count in an
`uint32_t`, so a negative failure value of the library wraps to a huge count,
passes the short-read test, and comes back through `n_read * 2048` and the
conversion to `int` as a negative byte count with `errno` still 0. For every
count the library can report on success the function keeps its documented
contract: a short count with `errno == 0` means the end of the disc.
-/

namespace Ddrescue

/-- `EINVAL`. -/
def einval : ℕ := 22

/-- `EIO`. -/
def eio : ℕ := 5

/-- `readblock_dvdread`: the value returned and `errno` on return. The
`uint32_t` variables `lb`, `n` and `n_read` are `BitVec 32`, each assignment
from a wider C integer is `BitVec.ofInt` (reduction modulo `2^32`), and the
conversion of `n_read * 2048` to the `int` result is `BitVec.toInt` (two's
complement). `raw` is what `DVDReadRawBlocks` returns and `libErrno` the
`errno` it leaves (0 when it does not touch it); `dvdBlocks` is the number of
blocks of the disc. -/
def readblockDvdread (dvdBlocks : BitVec 32) (size pos raw : ℤ) (libErrno : ℕ) : ℤ × ℕ :=
  if pos % 2048 ≠ 0 then (-1, einval)
  else if size % 2048 ≠ 0 then (-1, einval)
  else
    let lb : BitVec 32 := BitVec.ofInt 32 (pos / 2048)
    let n : BitVec 32 := BitVec.ofInt 32 (size / 2048)
    let nRead : BitVec 32 := BitVec.ofInt 32 raw
    let errno := if nRead < n ∧ lb + nRead < dvdBlocks then eio else libErrno
    ((nRead * 2048).toInt, errno)

/-- A value in `[0, 2^32)` survives the assignment to `uint32_t`. -/
theorem toNat_ofInt_of_lt {x : ℤ} (h0 : 0 ≤ x) (h : x < 2 ^ 32) :
    (BitVec.ofInt 32 x).toNat = x.toNat := by
  rw [BitVec.toNat_ofInt, Int.emod_eq_of_lt h0 (by simpa using h)]

/-- For every aligned request inside the disc and every block count the
library reports on success, `readblock_dvdread` returns a multiple of 2048
between 0 and `size`, and a short count with `errno == 0` only at the end of
the disc, provided the library leaves `errno` at 0 on a short read. -/
theorem readblockDvdread_count (dvdBlocks : BitVec 32) {size pos raw : ℤ}
    (hsize : 0 ≤ size ∧ size ≤ 2 ^ 31 - 1) (hpos : 0 ≤ pos ∧ pos < 2048 * dvdBlocks.toNat)
    (halign : pos % 2048 = 0 ∧ size % 2048 = 0) (hraw : 0 ≤ raw ∧ raw ≤ size / 2048) :
    let r := readblockDvdread dvdBlocks size pos raw 0
    r.1 % 2048 = 0 ∧ 0 ≤ r.1 ∧ r.1 ≤ size ∧
      (r.1 < size → r.2 = 0 → dvdBlocks.toNat ≤ pos / 2048 + r.1 / 2048) := by
  have hdvd := dvdBlocks.isLt
  have hlb := toNat_ofInt_of_lt (x := pos / 2048) (by omega) (by omega)
  have hn := toNat_ofInt_of_lt (x := size / 2048) (by omega) (by omega)
  have hr := toNat_ofInt_of_lt hraw.1 (show raw < 2 ^ 32 by omega)
  have hint : (BitVec.ofInt 32 raw * 2048).toInt = raw * 2048 := by
    have hmul : (BitVec.ofInt 32 raw * 2048).toNat = raw.toNat * 2048 := by
      rw [BitVec.toNat_mul, hr, show (2048 : BitVec 32).toNat = 2048 from rfl]
      exact Nat.mod_eq_of_lt (by change _ < 4294967296; omega)
    rw [BitVec.toInt_eq_toNat_cond, hmul, if_pos (by change _ < 4294967296; omega)]
    push_cast
    rw [Int.toNat_of_nonneg hraw.1]
  simp only [readblockDvdread, if_neg (show ¬pos % 2048 ≠ 0 by omega),
    if_neg (show ¬size % 2048 ≠ 0 by omega), hint]
  refine ⟨by omega, by omega, by omega, fun hlt herr => ?_⟩
  split at herr
  · simp [eio] at herr
  · rename_i hnot
    have hlt' : BitVec.ofInt 32 raw < BitVec.ofInt 32 (size / 2048) := by
      rw [BitVec.lt_def, hr, hn]
      omega
    have hge : ¬ BitVec.ofInt 32 (pos / 2048) + BitVec.ofInt 32 raw < dvdBlocks :=
      fun h => hnot ⟨hlt', h⟩
    rw [BitVec.lt_def, BitVec.toNat_add, hlb, hr, not_lt] at hge
    rcases lt_or_le ((pos / 2048).toNat + raw.toNat) (2 ^ 32) with hsum | hsum
    · rw [Nat.mod_eq_of_lt hsum] at hge
      omega
    · omega

/-- A one-block read at the second block of a four-block disc. -/
theorem readblockDvdread_count_second_block :
    ((0 : ℤ) ≤ 4096 ∧ (4096 : ℤ) ≤ 2 ^ 31 - 1) ∧
      ((0 : ℤ) ≤ 2048 ∧ (2048 : ℤ) < 2048 * ((4 : BitVec 32).toNat : ℤ)) ∧
      ((2048 : ℤ) % 2048 = 0 ∧ (4096 : ℤ) % 2048 = 0) ∧ ((0 : ℤ) ≤ 1 ∧ (1 : ℤ) ≤ 4096 / 2048) ∧
      let r := readblockDvdread 4 4096 2048 1 0
      r.1 % 2048 = 0 ∧ 0 ≤ r.1 ∧ r.1 ≤ 4096 ∧
        (r.1 < 4096 → r.2 = 0 → (4 : BitVec 32).toNat ≤ 2048 / 2048 + r.1 / 2048) :=
  have hsize : (0 : ℤ) ≤ 4096 ∧ (4096 : ℤ) ≤ 2 ^ 31 - 1 := by decide
  have hpos : (0 : ℤ) ≤ 2048 ∧ (2048 : ℤ) < 2048 * ((4 : BitVec 32).toNat : ℤ) := by decide
  have halign : (2048 : ℤ) % 2048 = 0 ∧ (4096 : ℤ) % 2048 = 0 := by decide
  have hraw : (0 : ℤ) ≤ 1 ∧ (1 : ℤ) ≤ 4096 / 2048 := by decide
  ⟨hsize, hpos, halign, hraw, readblockDvdread_count 4 hsize hpos halign hraw⟩

/-- A failing library call, which returns -1, makes `readblock_dvdread`
return -2048 with `errno == 0`: by its own comment that is end of file. -/
theorem readblockDvdread_failure :
    readblockDvdread 1 2048 0 (-1) 0 = (-2048, 0) := by decide

end Ddrescue
