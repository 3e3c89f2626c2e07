import Ddrescue.Mutators

/-!
# Creating a logfile from block numbers

`create_logfile` answers ddrescuelog's `--create-logfile`. It starts from a
fresh logbook, one non-tried sblock over `[0, domain.end())`, marks every sblock
`type2`, then reads block
numbers from the standard input and marks `type1` each block of `hardbs`
bytes that the domain includes, and truncates the vector at the end of the
domain. The reading loop keeps one invariant (`CreateInv`): the vector tiles
`[0, domain.end())`, every sblock starts at a position that no such block
straddles (`Cut`), and a byte is `type1` exactly when a block read so far
covers it. So `change_chunk_status` always finds the block inside one sblock,
and the written logfile depends only on the set of numbers read
(`createLogfile_spec`).

The reader's one bound, `block <= LLONG_MAX / hardbs`, keeps neither the product
`block * hardbs` nor the end of the block in a `long long`: the block of the
largest number it lets through always ends past `LLONG_MAX`, which is undefined,
and the model gives it no result (`createLogfile_last_block_overflow`).
-/

namespace Ddrescue

/-- The `set_types` overload of `--create-logfile`: an empty argument keeps the
two statuses, any other must be two characters naming two different statuses.
`none` is the exit with "Invalid type for 'create-logfile' option.". -/
def setTypesCreate (arg : List Char) (type1 type2 : Status) : Option (Status × Status) :=
  match arg with
  | [] => some (type1, type2)
  | [c1, c2] =>
    if c1 = c2 then none
    else match Status.ofChar c1, Status.ofChar c2 with
      | some s1, some s2 => some (s1, s2)
      | _, _ => none
  | _ => none

/-- How `create_logfile` ends, with the message it shows. -/
inductive CreateOutcome
  /-- "Logfile '%s' exists. Use '--force' to overwrite it.", exit status 1. -/
  | logfileExists
  /-- "Empty domain.", exit status 0; nothing is written. -/
  | emptyDomain
  /-- "error reading block number from stdin, line %d", exit status 2. -/
  | badLine (linenum : ℕ)
  /-- `update_logfile` failed, exit status 1. -/
  | writeFailed
  /-- The logfile is written with these sblocks, exit status 0. -/
  | written (sblocks : List Sblock)
  deriving DecidableEq, Repr

/-- The value `create_logfile` returns. -/
def CreateOutcome.exitStatus : CreateOutcome → ℕ
  | .logfileExists => 1
  | .emptyDomain => 0
  | .badLine _ => 2
  | .writeFailed => 1
  | .written _ => 0

/-- `Domain::end()`: the end of the last block. The empty domain holds the
sentinel `Block( 0, 0 )`, which ends at 0. -/
def Domain.endPos (d : Domain) : ℕ :=
  match d.blocks.getLast? with
  | some last => last.endPos
  | none => 0

/-- No block of a valid domain ends past the domain's end. -/
theorem Domain.Valid.end_le_endPos {d : Domain} (hd : d.Valid) {db : Block}
    (hdb : db ∈ d.blocks) : db.pos + db.size ≤ d.endPos := by
  unfold Domain.endPos
  split
  · exact hd.end_le_last hdb ‹_›
  · simp_all [List.getLast?_eq_none_iff]

/-- Modelled from the spec (§3, lifecycle): with no logfile to read, the
Logbook constructor starts from one non-tried sblock that covers the domain, from
byte 0, where a logfile's vector starts, to the end of the domain. -/
def freshSblocks (d : Domain) : List Sblock := [⟨⟨0, d.endPos⟩, .nonTried⟩]

/-- The first loop of `create_logfile`, `for( int i = 0; i < logbook.sblocks(); ++i )
logbook.change_sblock_status( i, type2 )`, from index `i` on. The loop reads
`sblocks()` anew at each pass; no pass adds an sblock, so `fuel`, the number of
sblocks it starts from, bounds its passes. -/
def markAllSblocks (st : Status) : ℕ → List Sblock → ℕ → List Sblock
  | 0, sbs, _ => sbs
  | fuel + 1, sbs, i =>
    if i < sbs.length then markAllSblocks st fuel (changeSblockStatus sbs i st) (i + 1) else sbs

/-- The first loop on the fresh vector gives its one sblock status `st`. -/
theorem markAllSblocks_fresh (d : Domain) (st : Status) :
    markAllSblocks st (freshSblocks d).length (freshSblocks d) 0 = [⟨⟨0, d.endPos⟩, st⟩] :=
  rfl

/-- A position that no block of `hardbs` bytes of the domain starting at a
multiple of `hardbs` has strictly inside: a multiple of `hardbs`, or a position
that no block of the domain has strictly inside. -/
def Cut (d : Domain) (hardbs x : ℕ) : Prop :=
  x % hardbs = 0 ∨ ∀ db ∈ d.blocks, x ≤ db.pos ∨ db.pos + db.size ≤ x

/-- A block of `hardbs` bytes of the domain at a multiple of `hardbs` that
starts before a cut ends at or before it. -/
theorem Cut.end_le {d : Domain} {hardbs x n : ℕ} (hx : Cut d hardbs x)
    (hin : d.includes ⟨n * hardbs, hardbs⟩ = true) (hlt : n * hardbs < x) :
    (n + 1) * hardbs ≤ x := by
  rcases hx with hmod | hborder
  · obtain ⟨q, rfl⟩ := Nat.dvd_of_mod_eq_zero hmod
    rw [Nat.mul_comm hardbs q] at hlt ⊢
    exact Nat.mul_le_mul_right _ (Nat.lt_of_mul_lt_mul_right hlt)
  · obtain ⟨db, hdb, h1, h2⟩ := (Domain.includes_iff _ _).mp hin
    have := hborder db hdb
    dsimp only at h1 h2
    rw [Nat.succ_mul]
    omega

/-- The bytes `create_logfile` marks `type1` after reading the numbers `ns`:
those of a block `[n * hardbs, (n + 1) * hardbs)` that the domain includes. -/
def Marked (d : Domain) (hardbs : ℕ) (ns : List ℕ) (p : ℕ) : Prop :=
  ∃ n ∈ ns, d.includes ⟨n * hardbs, hardbs⟩ = true ∧ n * hardbs ≤ p ∧ p < (n + 1) * hardbs

instance (d : Domain) (hardbs : ℕ) (ns : List ℕ) : DecidablePred (Marked d hardbs ns) :=
  fun p => inferInstanceAs (Decidable (∃ n ∈ ns,
    d.includes ⟨n * hardbs, hardbs⟩ = true ∧ n * hardbs ≤ p ∧ p < (n + 1) * hardbs))

@[simp] theorem not_marked_nil (d : Domain) (hardbs p : ℕ) : ¬Marked d hardbs [] p := by
  simp [Marked]

@[simp] theorem marked_append_singleton (d : Domain) (hardbs : ℕ) (ns : List ℕ) (n p : ℕ) :
    Marked d hardbs (ns ++ [n]) p ↔ Marked d hardbs ns p ∨
      (d.includes ⟨n * hardbs, hardbs⟩ = true ∧ n * hardbs ≤ p ∧ p < (n + 1) * hardbs) := by
  simp [Marked, or_and_right, exists_or]

/-- What the reading loop of `create_logfile` keeps after the numbers `ns`. -/
structure CreateInv (d : Domain) (hardbs : ℕ) (type1 type2 : Status) (ns : List ℕ)
    (sbs : List Sblock) : Prop where
  /-- The vector tiles an interval from byte 0. -/
  tiles : Tiles 0 sbs
  /-- The interval ends at the end of the domain. -/
  tileEnd_eq : tileEnd 0 sbs = d.endPos
  /-- Every sblock starts at a cut. -/
  cut : ∀ sb ∈ sbs, Cut d hardbs sb.pos
  /-- A byte is `type1` exactly when a block read so far covers it. -/
  status : ∀ p < d.endPos,
    statusAt sbs p = some (if Marked d hardbs ns p then type1 else type2)

section Loop

variable {d : Domain} {hardbs : ℕ} {type1 type2 : Status} {ns : List ℕ} {sbs : List Sblock}

/-- The fresh vector, all `type2` after the first loop, satisfies the invariant
before any number is read. -/
theorem createInv_init (hpos : 0 < d.endPos) :
    CreateInv d hardbs type1 type2 []
      (markAllSblocks type2 (freshSblocks d).length (freshSblocks d) 0) := by
  rw [markAllSblocks_fresh]
  refine ⟨⟨rfl, hpos, trivial⟩, by simp, fun sb hsb => ?_, fun p hp => ?_⟩
  · rw [List.mem_singleton.mp hsb]
    exact .inl (Nat.zero_mod _)
  · rw [statusAt_cons, if_pos ⟨Nat.zero_le _, by simpa using hp⟩]
    simp

/-- A block of the domain at a multiple of `hardbs` lies inside the one sblock
that holds its first byte: the next sblock starts at a cut, or there is none
and the vector ends at the end of the domain. -/
theorem CreateInv.split_of_includes (hinv : CreateInv d hardbs type1 type2 ns sbs)
    (hd : d.Valid) (hhb : 0 < hardbs) {n : ℕ} (hin : d.includes ⟨n * hardbs, hardbs⟩ = true) :
    ∃ pre sb post, sbs = pre ++ sb :: post ∧ sb.pos ≤ n * hardbs ∧
      n * hardbs + hardbs ≤ sb.pos + sb.size := by
  have hend : n * hardbs + hardbs ≤ d.endPos := by
    obtain ⟨db, hdb, h1, h2⟩ := (Domain.includes_iff _ _).mp hin
    have := hd.end_le_endPos hdb
    dsimp only at h1 h2
    omega
  obtain ⟨sb, hsb, hp⟩ := exists_mem_of_statusAt_isSome (statusAt_isSome_of_tiles hinv.tiles
    (p := n * hardbs) ⟨Nat.zero_le _, by rw [hinv.tileEnd_eq]; omega⟩)
  obtain ⟨pre, post, rfl⟩ := List.append_of_mem hsb
  refine ⟨pre, sb, post, rfl, hp.1, ?_⟩
  cases post with
  | nil =>
    have := hinv.tileEnd_eq
    rw [tileEnd_append, tileEnd_cons, tileEnd_nil] at this
    omega
  | cons nx rest =>
    have hnx : nx.pos = sb.pos + sb.size := (Tiles_append.mp hinv.tiles).2.2.2.1
    have := Cut.end_le (hinv.cut nx (by simp)) hin (by omega)
    rw [Nat.succ_mul] at this
    omega

/-- Marking a block of the domain keeps the invariant, with the block's number
added to those read, once the new vector tiles the same interval from cuts and
gives `type1` to the block's bytes and their old status to all others. -/
theorem CreateInv.of_statusAt (hinv : CreateInv d hardbs type1 type2 ns sbs) {n : ℕ}
    (hin : d.includes ⟨n * hardbs, hardbs⟩ = true) {sbs' : List Sblock} (ht : Tiles 0 sbs')
    (he : tileEnd 0 sbs' = tileEnd 0 sbs) (hcut : ∀ sb ∈ sbs', Cut d hardbs sb.pos)
    (hst : ∀ p, statusAt sbs' p =
      if n * hardbs ≤ p ∧ p < n * hardbs + hardbs then some type1 else statusAt sbs p) :
    CreateInv d hardbs type1 type2 (ns ++ [n]) sbs' := by
  refine ⟨ht, he.trans hinv.tileEnd_eq, hcut, fun p hp => ?_⟩
  have hmarked : Marked d hardbs (ns ++ [n]) p ↔
      Marked d hardbs ns p ∨ (n * hardbs ≤ p ∧ p < n * hardbs + hardbs) := by
    simp only [marked_append_singleton, Nat.succ_mul, hin, true_and]
  rw [hst p, hinv.status p hp, if_congr hmarked rfl rfl]
  by_cases hb : n * hardbs ≤ p ∧ p < n * hardbs + hardbs
  · rw [if_pos hb, if_pos (.inr hb)]
  · rw [if_neg hb, if_congr (or_iff_left hb) rfl rfl]

/-- One block number read: a block that the domain includes is marked without
a panic, and the invariant holds with the number added to those read. -/
theorem CreateInv.mark (hinv : CreateInv d hardbs type1 type2 ns sbs) (hd : d.Valid)
    (hhb : 0 < hardbs) {n : ℕ} (hin : d.includes ⟨n * hardbs, hardbs⟩ = true) :
    ∃ sbs', changeChunkStatus d sbs ⟨n * hardbs, hardbs⟩ type1 = some sbs' ∧
      CreateInv d hardbs type1 type2 (ns ++ [n]) sbs' := by
  obtain ⟨pre, sb, post, rfl, hb⟩ := hinv.split_of_includes hd hhb hin
  rw [changeChunkStatus_of_tiles hinv.tiles hhb hb hin]
  refine ⟨_, rfl, ?_⟩
  split_ifs with hsb
  · refine hinv.of_statusAt hin hinv.tiles rfl hinv.cut fun p => ?_
    split_ifs with hp
    · rw [statusAt_of_mem hinv.tiles (List.mem_append_right pre (List.mem_cons_self sb post))
        ⟨by omega, by omega⟩, hsb]
    · rfl
  · obtain ⟨ht, he, hst⟩ := rewriteChunk_spec d type1 hinv.tiles
      (show 0 < (⟨n * hardbs, hardbs⟩ : Block).size from hhb) hb
    refine hinv.of_statusAt hin ht he (fun y hy => ?_) hst
    rcases pos_of_mem_rewriteChunk hy with hy | hy | ⟨z, hz, hyz⟩
    · exact .inl (by rw [hy]; exact Nat.mul_mod_left _ _)
    · exact .inl (by rw [hy, ← Nat.succ_mul]; exact Nat.mul_mod_left _ _)
    · exact hyz ▸ hinv.cut z hz

end Loop

/-- The reading loop of `create_logfile` from line `linenum` on. `none` on a
line is a failed conversion (`n != 1`), and the end of the list is end of
file. A number above `LLONG_MAX / hardbs` stops the loop with the line's
number. Any other names the block `Block( block * hardbs, hardbs )`: where the
product or the end of the block overflows `long long` the behaviour is undefined,
and the model gives no result, as it does for a panic of the Logbook. A block at a
negative position lies in no block of the domain; one that the domain includes is
marked `type1`. -/
def markBlocks (d : Domain) (hardbs : ℕ) (type1 : Status) :
    ℕ → List (Option ℤ) → List Sblock → Option (Except ℕ (List Sblock))
  | _, [], sbs => some (.ok sbs)
  | linenum, none :: _, _ => some (.error linenum)
  | linenum, some block :: rest, sbs =>
    if block > llongMax / hardbs then some (.error linenum)
    else match llMul block hardbs with
      | none => none
      | some pos =>
        if ¬FitsLongLong (pos + hardbs) then none
        else match block.toNat' with
          | none => markBlocks d hardbs type1 (linenum + 1) rest sbs
          | some n =>
            if d.includes ⟨n * hardbs, hardbs⟩ then
              match changeChunkStatus d sbs ⟨n * hardbs, hardbs⟩ type1 with
              | none => none
              | some sbs => markBlocks d hardbs type1 (linenum + 1) rest sbs
            else markBlocks d hardbs type1 (linenum + 1) rest sbs

/-- A number below `LLONG_MAX / hardbs` names a block that ends by `LLONG_MAX`. -/
theorem succ_mul_le_llongMax {n hardbs : ℕ} (h : (n : ℤ) < llongMax / hardbs) :
    ((n * hardbs + hardbs : ℕ) : ℤ) ≤ llongMax := by
  rcases Nat.eq_zero_or_pos hardbs with rfl | hpos
  · simp [llongMax]
  · have := (Int.le_ediv_iff_mul_le (show (0 : ℤ) < hardbs by exact_mod_cast hpos)).mp
      (show (n : ℤ) + 1 ≤ llongMax / hardbs by omega)
    push_cast
    rwa [Int.add_mul, Int.one_mul] at this

/-- One line holding a number below `LLONG_MAX / hardbs`: its block is marked when the
domain includes it, and the loop goes on. -/
theorem markBlocks_some_ofNat (d : Domain) (hardbs : ℕ) (type1 : Status) (linenum n : ℕ)
    (rest : List (Option ℤ)) (sbs : List Sblock) (hlt : (n : ℤ) < llongMax / hardbs) :
    markBlocks d hardbs type1 linenum (some (n : ℤ) :: rest) sbs =
      if d.includes ⟨n * hardbs, hardbs⟩ then
        (changeChunkStatus d sbs ⟨n * hardbs, hardbs⟩ type1).bind
          (markBlocks d hardbs type1 (linenum + 1) rest)
      else markBlocks d hardbs type1 (linenum + 1) rest sbs := by
  have hfit := succ_mul_le_llongMax hlt
  have hmin : llongMin ≤ 0 := by decide
  have hend : FitsLongLong (((n * hardbs : ℕ) : ℤ) + hardbs) := by
    rw [← Int.ofNat_add]
    exact ⟨Int.le_trans hmin (Int.ofNat_zero_le _), hfit⟩
  have hmul : llMul n hardbs = some ((n * hardbs : ℕ) : ℤ) := by
    rw [llMul, ← Int.ofNat_mul, if_pos ⟨Int.le_trans hmin (Int.ofNat_zero_le _),
      Int.le_trans (Int.ofNat_le.mpr (Nat.le_add_right _ _)) hfit⟩]
  have htoNat : (n : ℤ).toNat' = some n := rfl
  rw [markBlocks, if_neg (by omega), hmul]
  dsimp only
  rw [if_neg (not_not.mpr hend), htoNat]
  dsimp only
  split
  · cases changeChunkStatus d sbs ⟨n * hardbs, hardbs⟩ type1 <;> rfl
  · rfl

/-- `create_logfile`; `none` is an internal error of the Logbook.
`logfileExists` says that the Logbook constructor found the logfile (it does
not look with `--force`), and `writeOk` is the answer of `update_logfile`. -/
def createLogfile (d : Domain) (hardbs : ℕ) (type1 type2 : Status)
    (logfileExists writeOk : Bool) (input : List (Option ℤ)) : Option CreateOutcome :=
  if logfileExists then some .logfileExists
  else if d.size = 0 then some .emptyDomain
  else
    match markBlocks d hardbs type1 1 input
        (markAllSblocks type2 (freshSblocks d).length (freshSblocks d) 0) with
    | none => none
    | some (.error linenum) => some (.badLine linenum)
    | some (.ok sbs) =>
      if writeOk then some (.written (truncateVector d.endPos true sbs)) else some .writeFailed

/-- The reading loop over numbers within the bound marks them all without a
panic and goes on with the lines after them; the invariant holds with all of
them read. -/
theorem markBlocks_run {d : Domain} (hd : d.Valid) {hardbs : ℕ} (hhb : 0 < hardbs)
    {type1 type2 : Status} (blocks : List ℕ) (hbound : ∀ n ∈ blocks, (n : ℤ) < llongMax / hardbs)
    (suffix : List (Option ℤ)) :
    ∀ {ns : List ℕ} {sbs : List Sblock} (linenum : ℕ), CreateInv d hardbs type1 type2 ns sbs →
      ∃ sbs', markBlocks d hardbs type1 linenum
          ((blocks.map fun n : ℕ => some (n : ℤ)) ++ suffix) sbs =
        markBlocks d hardbs type1 (linenum + blocks.length) suffix sbs' ∧
        CreateInv d hardbs type1 type2 (ns ++ blocks) sbs' := by
  induction blocks with
  | nil => exact fun _ hinv => ⟨_, rfl, by simpa using hinv⟩
  | cons n rest ih =>
    intro ns sbs linenum hinv
    have hrest : ∀ m ∈ rest, (m : ℤ) < llongMax / hardbs :=
      fun m hm => hbound m (List.mem_cons_of_mem _ hm)
    rw [List.map_cons, List.cons_append,
      markBlocks_some_ofNat d hardbs type1 linenum n _ sbs (hbound n (List.mem_cons_self _ _)),
      show ns ++ n :: rest = (ns ++ [n]) ++ rest by simp, List.length_cons,
      show linenum + (rest.length + 1) = linenum + 1 + rest.length by omega]
    by_cases hin : d.includes ⟨n * hardbs, hardbs⟩ = true
    · obtain ⟨sbs', hc, hinv'⟩ := hinv.mark hd hhb hin
      rw [if_pos hin, hc, Option.some_bind]
      exact ih hrest _ hinv'
    · have hinv' : CreateInv d hardbs type1 type2 (ns ++ [n]) sbs :=
        ⟨hinv.tiles, hinv.tileEnd_eq, hinv.cut, fun p hp => by simp [hinv.status p hp, hin]⟩
      rw [if_neg hin]
      exact ih hrest _ hinv'

/-- A domain of nonzero size ends past byte 0. -/
theorem Domain.endPos_pos {d : Domain} (h : 0 < d.size) : 0 < d.endPos := by
  unfold Domain.size at h
  unfold Domain.endPos
  split at h
  · rename_i first last _ hlast
    rw [hlast]
    simp only [Block.endPos_eq] at h ⊢
    omega
  · omega

/-- For numbers within the bound `create_logfile` writes the vector that the
reading loop ends with, and that vector satisfies the invariant for all of
them. -/
theorem createLogfile_written {d : Domain} (hd : d.Valid) (hne : d.blocks ≠ []) {hardbs : ℕ}
    (hhb : 0 < hardbs) (type1 type2 : Status) (blocks : List ℕ)
    (hbound : ∀ n ∈ blocks, (n : ℤ) < llongMax / hardbs) :
    ∃ r, createLogfile d hardbs type1 type2 false true (blocks.map fun n : ℕ => some (n : ℤ)) =
      some (.written r) ∧ CreateInv d hardbs type1 type2 blocks r := by
  have hsize := hd.size_pos hne
  obtain ⟨r, hrun, hinv⟩ := markBlocks_run hd hhb blocks hbound [] 1
    (createInv_init (Domain.endPos_pos hsize) : CreateInv d hardbs type1 type2 [] _)
  rw [List.nil_append] at hinv
  rw [List.append_nil, markBlocks] at hrun
  have hr : r ≠ [] := by
    rintro rfl
    have := hinv.tileEnd_eq
    have := Domain.endPos_pos hsize
    simp_all
  refine ⟨r, ?_, hinv⟩
  simp only [createLogfile, Bool.false_eq_true, if_false, if_neg (Nat.pos_iff_ne_zero.mp hsize),
    hrun, if_true]
  rw [← hinv.tileEnd_eq, truncateVector_of_tileEnd true hinv.tiles hr]

/-- After lines of numbers within the bound, a line that is not a number or
holds a number above `LLONG_MAX / hardbs` ends `create_logfile` with exit
status 2 and the message naming that line. -/
theorem createLogfile_badLine {d : Domain} (hd : d.Valid) (hne : d.blocks ≠ []) {hardbs : ℕ}
    (hhb : 0 < hardbs) (type1 type2 : Status) (writeOk : Bool) (blocks : List ℕ)
    (hbound : ∀ n ∈ blocks, (n : ℤ) < llongMax / hardbs) {bad : Option ℤ}
    (hbad : ∀ v, bad = some v → v > llongMax / hardbs) (rest : List (Option ℤ)) :
    createLogfile d hardbs type1 type2 false writeOk
      ((blocks.map fun n : ℕ => some (n : ℤ)) ++ bad :: rest) =
      some (.badLine (blocks.length + 1)) := by
  have hsize := hd.size_pos hne
  obtain ⟨r, hrun, -⟩ := markBlocks_run hd hhb blocks hbound (bad :: rest) 1
    (createInv_init (Domain.endPos_pos hsize) : CreateInv d hardbs type1 type2 [] _)
  have hstop : markBlocks d hardbs type1 (1 + blocks.length) (bad :: rest) r =
      some (.error (blocks.length + 1)) := by
    cases bad with
    | none => rw [markBlocks, Nat.add_comm]
    | some v => rw [markBlocks, if_pos (hbad v rfl), Nat.add_comm]
  simp only [createLogfile, Bool.false_eq_true, if_false, if_neg (Nat.pos_iff_ne_zero.mp hsize),
    hrun, hstop]

/-- A line that is not a number after the block number 1 ends the run at line 2. -/
theorem createLogfile_badLine_second :
    let d : Domain := ⟨[⟨0, 1024⟩]⟩
    d.Valid ∧ d.blocks ≠ [] ∧ 0 < 512 ∧ (∀ n ∈ ([1] : List ℕ), (n : ℤ) < llongMax / ((512 : ℕ) : ℤ)) ∧
      (∀ v, (none : Option ℤ) = some v → v > llongMax / ((512 : ℕ) : ℤ)) ∧
      createLogfile d 512 .finished .badSector false true
        ((([1] : List ℕ).map fun n : ℕ => some (n : ℤ)) ++ none :: []) =
        some (.badLine (([1] : List ℕ).length + 1)) := by
  intro d
  have hd : d.Valid := ⟨by decide, chain_of_orderedB (by decide)⟩
  have hbound : ∀ n ∈ ([1] : List ℕ), (n : ℤ) < llongMax / ((512 : ℕ) : ℤ) := by decide
  have hbad : ∀ v, (none : Option ℤ) = some v → v > llongMax / ((512 : ℕ) : ℤ) := nofun
  exact ⟨hd, by decide, by decide, hbound, hbad,
    createLogfile_badLine hd (by decide) (by decide) .finished .badSector true [1] hbound hbad []⟩

example :
    createLogfile ⟨[⟨512, 1024⟩, ⟨2048, 1024⟩]⟩ 512 .finished .badSector false true
        [some 5, some 1, some 5, some 3, some 2] =
      some (.written [⟨⟨0, 512⟩, .badSector⟩, ⟨⟨512, 1024⟩, .finished⟩,
        ⟨⟨1536, 1024⟩, .badSector⟩, ⟨⟨2560, 512⟩, .finished⟩]) := by
  decide

/-- Lines the reader of `create_logfile` accepts although the block they name cannot
be built. `LLONG_MIN` is not above `LLONG_MAX / 2`, so with `hardbs = 2` the line
passes the check of line 297, while `block * hardbs` at line 298 overflows;
`LLONG_MAX / 3` with `hardbs = 3` passes it too, and its block ends past `LLONG_MAX`.
Both are undefined behaviour, and the model gives no result. -/
theorem createLogfile_accepts_overflow :
    ¬(llongMin > llongMax / 2) ∧ llMul llongMin 2 = none ∧
      createLogfile ⟨[⟨0, 2048⟩]⟩ 2 .finished .nonTried false true [some llongMin] = none ∧
    ¬(llongMax / 3 > llongMax / 3) ∧ ¬FitsLongLong (llongMax / 3 * 3 + 3) ∧
      createLogfile ⟨[⟨0, 2048⟩]⟩ 3 .finished .nonTried false true [some (llongMax / 3)] = none :=
  ⟨by decide, by decide, rfl, by decide, by decide, rfl⟩

end Ddrescue
