import Ddrescue.Loop
import Ddrescue.FindChunk

/-!
# `do_logic_ops`: AND, OR and XOR of two logfiles

`ddrescuelog --and`, `--or` and `--xor` combine the logfile of a first logbook
`A` with that of a second one `B`. After `verify_logname_and_domain` on each,
`do_logic_ops` walks `A`'s vector with the loop of `forSblocks`. On each sblock
`sb` of the domain it asks `B` for its first finished chunk at or after `sb.pos()`
(`find_chunk`) and, by where that chunk lies in `sb`, rewrites `sb` whole, splits
`sb` and moves on, or rewrites a part of `sb` with `change_chunk_status` and
revisits index `i` (`--i`).

None of the three meets its law on every pair of logbooks. A whole sblock that
`change_sblock_status` rewrites merges with the sblock before when the two share
the new status, and the `++i` that follows then skips the sblock after it
(`doLogicOps_and_skips_after_join`). The OR branch that splits `sb` at the end of
a chunk starting strictly inside it passes the chunk's bytes unchanged
(`doLogicOps_or_inner_run`), and the XOR branch that rewrites a prefix of `sb`
revisits the prefix and flips it a second time (`doLogicOps_xor_double_flip`).
What each mode does keep is in `LogicLaws`.
-/

namespace Ddrescue

/-- The operation `do_logic_ops` performs (`program_mode`). -/
inductive LogicMode
  /-- `m_and`. -/
  | mAnd
  /-- `m_or`. -/
  | mOr
  /-- `m_xor`. -/
  | mXor
  deriving DecidableEq, Repr

/-- The body of the loop of `do_logic_ops` on sblock `i` of the vector, `sb`,
which the domain `d` includes: the vector and the index of the next pass (`i`
after `--i`), or `none` when the Logbook panics. `B` is the second logbook, and
`b` the chunk `find_chunk` narrows `sb` to. -/
def logicBody (mode : LogicMode) (d : Domain) (B : Logbook) (sbs : List Sblock) (i : ℕ)
    (sb : Sblock) : Option (List Sblock × ℕ) :=
  let b := B.findChunk sb.toBlock
  match mode with
  | .mAnd =>
    if sb.status ≠ .finished then some (sbs, i + 1)
    else if b.size = 0 ∨ sb.pos + sb.size ≤ b.pos then
      some (changeSblockStatus sbs i .badSector, i + 1)
    else if b = sb.toBlock then some (sbs, i + 1)
    else if b.pos = sb.pos then some (splitSblockBy sbs (b.pos + b.size) i, i + 1)
    else (changeChunkStatus d sbs ⟨sb.pos, b.pos - sb.pos⟩ .badSector).map fun sbs => (sbs, i)
  | .mOr =>
    if sb.status = .finished then some (sbs, i + 1)
    else if b.size = 0 ∨ sb.pos + sb.size ≤ b.pos then some (sbs, i + 1)
    else if b = sb.toBlock then some (changeSblockStatus sbs i .finished, i + 1)
    else if b.pos = sb.pos then (changeChunkStatus d sbs b .finished).map fun sbs => (sbs, i)
    else some (splitSblockBy sbs (b.pos + b.size) i, i + 1)
  | .mXor =>
    let st : Status := if sb.status = .finished then .badSector else .finished
    if b.size = 0 ∨ sb.pos + sb.size ≤ b.pos then some (sbs, i + 1)
    else if b = sb.toBlock then some (changeSblockStatus sbs i st, i + 1)
    else if b.pos = sb.pos then (changeChunkStatus d sbs b st).map fun sbs => (sbs, i)
    else some (splitSblockBy sbs (b.pos + b.size) i, i + 1)

/-- `do_logic_ops`: `verify_logname_and_domain` on `A` and then on `B`, and the
vector written after the loop and `compact_sblock_vector`; `none` when the Logbook
panics. -/
def doLogicOps (mode : LogicMode) (A B : Logbook) : Option (Verified (List Sblock)) :=
  if A.domain.size = 0 ∨ B.domain.size = 0 then some .emptyDomain
  else (forSblocks A.domain (logicBody mode A.domain B) (loopFuel A.sblocks) A.sblocks 0).map
    fun sbs => .ok (compactSblockVector sbs)

/-- On logbooks with nonempty domains `do_logic_ops` writes what its loop ends with. -/
theorem doLogicOps_of_ne {A B : Logbook} (hA : A.Valid) (hB : B.Valid)
    (hneA : A.domain.blocks ≠ []) (hneB : B.domain.blocks ≠ []) (mode : LogicMode) :
    doLogicOps mode A B = (forSblocks A.domain (logicBody mode A.domain B) (loopFuel A.sblocks)
      A.sblocks 0).map fun sbs => .ok (compactSblockVector sbs) := by
  have := hA.domain.size_pos hneA
  have := hB.domain.size_pos hneB
  rw [doLogicOps, if_neg (by omega)]

/-- The status the AND of `A` with `B` gives byte `p`: bad-sector when `A`
marks it finished inside `A`'s domain and `B` does not mark it finished inside
`B`'s domain; `A`'s status otherwise. -/
def andStatus (A B : Logbook) (p : ℕ) : Option Status :=
  if statusAt A.sblocks p = some .finished ∧ A.domain.includesPos p = true ∧ ¬ B.FinishedAt p
  then some .badSector
  else statusAt A.sblocks p

section AndLoop

variable {A B : Logbook} {p : ℕ}

end AndLoop

/-- AND skips the sblock after a whole sblock it turns bad-sector when that one joins
the bad-sector sblock before it: sblock 1, finished, becomes bad-sector and merges
with sblocks 0 and 2 into `[0, 30)`, so index 2 lies past the end of the vector and
byte 35, finished in `A` and not in `B`, stays finished where the AND law gives
bad-sector. -/
theorem doLogicOps_and_skips_after_join :
    let A : Logbook := ⟨[⟨⟨0, 10⟩, .badSector⟩, ⟨⟨10, 10⟩, .finished⟩, ⟨⟨20, 10⟩, .badSector⟩,
      ⟨⟨30, 10⟩, .finished⟩], ⟨[⟨0, 40⟩]⟩⟩
    let B : Logbook := ⟨[⟨⟨0, 40⟩, .badSector⟩], ⟨[⟨0, 40⟩]⟩⟩
    A.check = true ∧ B.check = true ∧ A.domain = B.domain ∧ andStatus A B 35 = some .badSector ∧
      doLogicOps .mAnd A B = some (.ok [⟨⟨0, 30⟩, .badSector⟩, ⟨⟨30, 10⟩, .finished⟩]) := by
  decide

/-- OR passes a finished run of `B` that starts strictly inside a non-finished
sblock of `A` and reaches its end: the split at the run's end leaves the
sblock whole, and byte 75, finished in `B`, stays non-tried. -/
theorem doLogicOps_or_inner_run :
    let A : Logbook := ⟨[⟨⟨0, 100⟩, .nonTried⟩], ⟨[⟨0, 100⟩]⟩⟩
    let B : Logbook := ⟨[⟨⟨0, 50⟩, .badSector⟩, ⟨⟨50, 50⟩, .finished⟩], ⟨[⟨0, 100⟩]⟩⟩
    A.check = true ∧ B.check = true ∧ A.domain.includesPos 75 = true ∧ B.FinishedAt 75 ∧
      doLogicOps .mOr A B = some (.ok [⟨⟨0, 100⟩, .nonTried⟩]) := by
  decide

/-- XOR flips a prefix twice: `B`'s finished chunk `[0, 5)` at the start of a
non-tried sblock is rewritten finished, revisited after `--i`, and rewritten
bad-sector, where the XOR law gives finished. -/
theorem doLogicOps_xor_double_flip :
    let A : Logbook := ⟨[⟨⟨0, 10⟩, .nonTried⟩], ⟨[⟨0, 10⟩]⟩⟩
    let B : Logbook := ⟨[⟨⟨0, 5⟩, .finished⟩, ⟨⟨5, 5⟩, .badSector⟩], ⟨[⟨0, 10⟩]⟩⟩
    A.check = true ∧ B.check = true ∧
      doLogicOps .mXor A B = some (.ok [⟨⟨0, 5⟩, .badSector⟩, ⟨⟨5, 5⟩, .nonTried⟩]) := by
  decide

end Ddrescue
