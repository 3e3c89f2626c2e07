import Mathlib.Tactic.Ring
import Ddrescue.FindChunk

/-!
# `to_badblocks`: listing the blocks of chosen statuses

`ddrescuelog --list-blocks=types` prints the number of every `hardbs`-sized
block, shifted by `offset = opos - ipos`, that holds a byte of the domain whose
status is one of `types`. For each sblock of the domain with a chosen status, an
inner loop prints the blocks it touches, skipping those not above the last one
printed (`last_block`); a block below it would be an internal error.

Over every valid logbook, the printed list is strictly ascending and is the set
of blocks of the chosen bytes (`toBadblocks_spec`). The sblocks of a tiling come
in order, so `last_block` never exceeds the first block of the next sblock, and
the internal error cannot occur.
-/

namespace Ddrescue

/-- The inner `for` of `to_badblocks` over the blocks an sblock touches, from
`block` while `block * hardbs < e`, where `e` is `sb.end() + offset`. A block
above `last_block` is printed and becomes `last_block`; a block below it is an
internal error ("block out of order"), `none` here. The state is `last_block`
and the blocks printed so far; `fuel` bounds the passes. -/
def printBlocks (hardbs e : ℤ) : ℕ → ℤ → ℤ × List ℤ → Option (ℤ × List ℤ)
  | 0, _, _ => none
  | fuel + 1, block, (lastBlock, out) =>
    if block * hardbs < e then
      if block > lastBlock then printBlocks hardbs e fuel (block + 1) (block, out ++ [block])
      else if block < lastBlock then none
      else printBlocks hardbs e fuel (block + 1) (lastBlock, out)
    else some (lastBlock, out)

/-- The body of the outer loop of `to_badblocks` on an sblock of the domain:
skip it unless `blocktypes` holds its status, else run the inner loop from
`( sb.pos() + offset ) / hardbs`, which runs at most once per byte of the
sblock, plus its final test. -/
def toBadblocksBody (offset : ℤ) (hardbs : ℕ) (blocktypes : List Char) (acc : ℤ × List ℤ)
    (sb : Sblock) : Option (ℤ × List ℤ) :=
  if sb.status.toChar ∈ blocktypes then
    printBlocks hardbs (sb.pos + sb.size + offset) (sb.size + 1)
      (Int.tdiv (sb.pos + offset) hardbs) acc
  else some acc

/-- `to_badblocks`: the block numbers it prints, or `none` when it panics.
`verify_logname_and_domain` exits with status 0 on an empty domain, printing
nothing. The outer loop only reads the vector, so it runs over the `scan` of
the domain, from `last_block = -1`. -/
def toBadblocks (offset : ℤ) (A : Logbook) (hardbs : ℕ) (blocktypes : List Char) :
    Option (List ℤ) :=
  if A.domain.size = 0 then some []
  else ((scan A.domain A.sblocks).foldlM (toBadblocksBody offset hardbs blocktypes) (-1, [])).map
    Prod.snd

/-- The consecutive block numbers `b, b + 1, …, b + k - 1`. -/
def blockRun (b : ℤ) (k : ℕ) : List ℤ := (List.range k).map fun i : ℕ => b + i

theorem mem_blockRun {b x : ℤ} {k : ℕ} : x ∈ blockRun b k ↔ b ≤ x ∧ x < b + k := by
  simp only [blockRun, List.mem_map, List.mem_range]
  constructor
  · rintro ⟨i, hi, rfl⟩
    omega
  · rintro ⟨h1, h2⟩
    exact ⟨(x - b).toNat, by omega, by omega⟩

theorem blockRun_succ (b : ℤ) (k : ℕ) : blockRun b (k + 1) = b :: blockRun (b + 1) k := by
  simp only [blockRun, List.range_succ_eq_map, List.map_cons, List.map_map]
  congr 1
  · simp
  · refine List.map_congr_left fun i _ => ?_
    simp only [Function.comp_apply, Nat.cast_succ]
    ring

theorem pairwise_blockRun (b : ℤ) (k : ℕ) : (blockRun b k).Pairwise (· < ·) := by
  induction k generalizing b with
  | zero => exact List.Pairwise.nil
  | succ k ih =>
    rw [blockRun_succ]
    exact List.pairwise_cons.mpr ⟨fun x hx => by have := mem_blockRun.mp hx; omega, ih _⟩

/-- The inner loop, run from a block not below `last_block` for the `k` blocks
below `e`, prints those of them above `last_block` and ends with the last of
them as `last_block`. -/
theorem printBlocks_eq (hb e : ℤ) (k : ℕ) :
    ∀ (b last : ℤ) (out : List ℤ) (fuel : ℕ), last ≤ b → (∀ i : ℕ, i < k → (b + i) * hb < e) →
      e ≤ (b + k) * hb → k < fuel →
      printBlocks hb e fuel b (last, out) =
        some (if k = 0 then last else b + k - 1, out ++ (blockRun b k).filter (last < ·)) := by
  induction k with
  | zero =>
    intro b last out fuel _ _ hend hfuel
    obtain ⟨fuel, rfl⟩ : ∃ f, fuel = f + 1 := ⟨fuel - 1, by omega⟩
    simp only [printBlocks, Nat.cast_zero, add_zero] at hend ⊢
    rw [if_neg (by omega)]
    simp [blockRun]
  | succ k ih =>
    intro b last out fuel hlast hlt hend hfuel
    obtain ⟨fuel, rfl⟩ : ∃ f, fuel = f + 1 := ⟨fuel - 1, by omega⟩
    have h0 : b * hb < e := by simpa using hlt 0 (by omega)
    have hlt' : ∀ i : ℕ, i < k → (b + 1 + i) * hb < e := fun i hi => by
      simpa [add_assoc, add_comm 1 (i : ℤ)] using hlt (i + 1) (by omega)
    have hend' : e ≤ (b + 1 + k) * hb := by push_cast at hend; rwa [add_assoc, add_comm 1 (k : ℤ)]
    have hall : ∀ c, c ≤ b → (blockRun (b + 1) k).filter (c < ·) = blockRun (b + 1) k :=
      fun c hc => List.filter_eq_self.mpr fun x hx => by
        have := mem_blockRun.mp hx
        simp only [decide_eq_true_eq]
        omega
    simp only [printBlocks, if_pos h0, blockRun_succ, List.filter_cons]
    by_cases hgt : b > last
    · rw [if_pos hgt, ih (b + 1) b _ fuel (by omega) hlt' hend' (by omega), hall b le_rfl,
        hall last (by omega), if_pos (decide_eq_true hgt)]
      simp only [Option.some.injEq, Prod.mk.injEq, List.append_assoc, List.singleton_append,
        Nat.add_one_ne_zero, if_false, and_true]
      split_ifs <;> push_cast <;> omega
    · rw [if_neg hgt, if_neg (by omega), ih (b + 1) last _ fuel (by omega) hlt' hend' (by omega),
        show last = b by omega, hall b le_rfl, if_neg (show ¬decide (b < b) = true by simp)]
      simp only [Option.some.injEq, Prod.mk.injEq, Nat.add_one_ne_zero, if_false, and_true]
      split_ifs <;> push_cast <;> omega

/-- Block `x` holds a byte of `sb`, shifted by `offset`. -/
def BlockOf (offset : ℤ) (hardbs : ℕ) (sb : Sblock) (x : ℤ) : Prop :=
  ∃ p : ℕ, sb.pos ≤ p ∧ p < sb.pos + sb.size ∧ x = (p + offset) / hardbs

/-- The blocks of an sblock are those from the block of its first byte that
start before its end. -/
theorem blockOf_iff {offset : ℤ} {hardbs : ℕ} (hhb : 0 < hardbs) {sb : Sblock} (hsz : 0 < sb.size)
    (x : ℤ) :
    BlockOf offset hardbs sb x ↔
      ((sb.pos : ℤ) + offset) / hardbs ≤ x ∧ x * hardbs < sb.pos + sb.size + offset := by
  have hb : (0 : ℤ) < hardbs := by exact_mod_cast hhb
  constructor
  · rintro ⟨p, h1, h2, rfl⟩
    refine ⟨Int.ediv_le_ediv hb (by omega), ?_⟩
    have := Int.ediv_mul_le ((p : ℤ) + offset) (Int.ne_of_gt hb)
    omega
  · rintro ⟨h1, h2⟩
    -- the first byte of the block, or of the sblock if the block starts before it
    obtain ⟨q, hq1, hq2, hq3⟩ : ∃ q : ℤ, x * hardbs ≤ q ∧ (sb.pos : ℤ) + offset ≤ q ∧
        (q = x * hardbs ∨ q = sb.pos + offset) :=
      ⟨max (x * hardbs) (sb.pos + offset), le_max_left _ _, le_max_right _ _, max_choice _ _⟩
    have hfirst := Int.lt_ediv_add_one_mul_self ((sb.pos : ℤ) + offset) hb
    have hmono : (((sb.pos : ℤ) + offset) / hardbs + 1) * hardbs ≤ (x + 1) * hardbs :=
      Int.mul_le_mul_of_nonneg_right (by omega) (by omega)
    have hx1 : (x + 1) * hardbs = x * hardbs + hardbs := by ring
    refine ⟨(q - offset).toNat, by omega, by omega, ?_⟩
    rw [show (((q - offset).toNat : ℕ) : ℤ) + offset = q by omega]
    have hlo : x ≤ q / hardbs := (Int.le_ediv_iff_mul_le hb).mpr hq1
    have hhi : q / hardbs < x + 1 := (Int.ediv_lt_iff_lt_mul hb).mpr (by omega)
    omega

/-- The blocks of `hardbs` bytes that meet `[a, e)`, for `a < e`: there are `k`
of them from block `a / hardbs` on, at most `e - a`, and a block lies below the last
of them exactly when it starts before `e`. -/
theorem blockRange {hardbs : ℕ} (hhb : 0 < hardbs) {a e : ℤ} (hae : a < e) :
    ∃ k : ℕ, (k : ℤ) = (e - 1) / hardbs + 1 - a / hardbs ∧ (k : ℤ) ≤ e - a ∧
      ∀ x : ℤ, x < a / hardbs + k ↔ x * hardbs < e := by
  have hb : (0 : ℤ) < hardbs := by exact_mod_cast hhb
  have hbne : (hardbs : ℤ) ≠ 0 := Int.ne_of_gt hb
  have hb0 := Int.ediv_mul_le a hbne
  have hc1 := Int.ediv_mul_le (e - 1) hbne
  have hc2 := Int.lt_ediv_add_one_mul_self (e - 1) hb
  have hbc : a / hardbs ≤ (e - 1) / hardbs := Int.le_ediv_of_mul_le hb (by omega)
  obtain ⟨k, hk⟩ : ∃ k : ℕ, (k : ℤ) = (e - 1) / hardbs + 1 - a / hardbs :=
    ⟨_, Int.toNat_of_nonneg (by omega)⟩
  refine ⟨k, hk, ?_, fun x => ⟨fun hx => ?_, fun hx => ?_⟩⟩
  · -- `k` blocks span at least `(k - 1) · hardbs + 1` bytes of `[a, e)`
    by_contra hgt
    obtain ⟨n, hn⟩ : ∃ n, n = e - a := ⟨_, rfl⟩
    have h1 : n * hardbs ≤ ((e - 1) / hardbs - a / hardbs) * hardbs :=
      Int.mul_le_mul_of_nonneg_right (by omega) hb.le
    have h2 : 0 ≤ (n - 1) * (hardbs - 1) := Int.mul_nonneg (by omega) (by omega)
    rw [Int.sub_mul] at h1
    have e2 : (n - 1) * (hardbs - 1) = n * hardbs - n - hardbs + 1 := by ring
    have e3 : (a / hardbs + 1) * hardbs = a / hardbs * hardbs + hardbs := by ring
    have hb0' := Int.lt_ediv_add_one_mul_self a hb
    omega
  · have := Int.mul_le_mul_of_nonneg_right (show x ≤ (e - 1) / hardbs by omega) hb.le
    omega
  · by_contra hge
    have := Int.mul_le_mul_of_nonneg_right (show (e - 1) / hardbs + 1 ≤ x by omega) hb.le
    omega

/-- The inner loop on an sblock with a chosen status, entered with a
`last_block` not past the sblock's first block, prints the sblock's blocks
above `last_block` in ascending order and ends with the sblock's last block as
`last_block`. A block of the sblock not above `last_block` is `last_block`
itself. -/
theorem printBlocks_sblock {offset : ℤ} {hardbs : ℕ} (hhb : 0 < hardbs) {sb : Sblock}
    (hsz : 0 < sb.size) (h0 : 0 ≤ (sb.pos : ℤ) + offset) {last : ℤ}
    (hlast : last * hardbs ≤ sb.pos + offset) (out : List ℤ) :
    ∃ last' new, printBlocks hardbs (sb.pos + sb.size + offset) (sb.size + 1)
        (Int.tdiv (sb.pos + offset) hardbs) (last, out) = some (last', out ++ new) ∧
      new.Pairwise (· < ·) ∧ (∀ x, x ∈ new ↔ last < x ∧ BlockOf offset hardbs sb x) ∧
      last ≤ last' ∧ last' * hardbs < sb.pos + sb.size + offset ∧ (last' = last ∨ last' ∈ new) ∧
      (∀ x ∈ new, x ≤ last') ∧ (∀ x, BlockOf offset hardbs sb x → x ≤ last → 0 ≤ x ∧ x = last) := by
  have hb : (0 : ℤ) < hardbs := by exact_mod_cast hhb
  -- the loop runs over the blocks `a / hardbs, …, (e - 1) / hardbs`
  obtain ⟨a, ha⟩ : ∃ a : ℤ, a = sb.pos + offset := ⟨_, rfl⟩
  obtain ⟨e, he⟩ : ∃ e : ℤ, e = sb.pos + sb.size + offset := ⟨_, rfl⟩
  rw [← ha, ← he, Int.tdiv_eq_ediv (ha ▸ h0) hb.le]
  have hb0' := Int.lt_ediv_add_one_mul_self a hb
  have hlastb : last ≤ a / hardbs := Int.le_ediv_of_mul_le hb (by omega)
  have hb0nn : 0 ≤ a / hardbs := Int.ediv_nonneg (by omega) hb.le
  obtain ⟨k, hk, hksize, hbelow⟩ := blockRange hhb (a := a) (e := e) (by omega)
  have hk0 : 0 < k := by
    have := (hbelow _).mpr (lt_of_le_of_lt (Int.ediv_mul_le a (Int.ne_of_gt hb)) (by omega))
    omega
  have hend : e ≤ (a / hardbs + k) * hardbs := not_lt.mp fun h => lt_irrefl _ ((hbelow _).mpr h)
  have hrun := printBlocks_eq hardbs e k (a / hardbs) last out (sb.size + 1) hlastb
    (fun i hi => (hbelow _).mp (by omega)) hend (by omega)
  rw [if_neg (by omega)] at hrun
  have hmem : ∀ x, x ∈ (blockRun (a / hardbs) k).filter (last < ·) ↔ last < x ∧ BlockOf offset hardbs sb x := by
    intro x
    rw [List.mem_filter, mem_blockRun, blockOf_iff hhb hsz, ← ha, ← he, ← hbelow, decide_eq_true_eq]
    tauto
  refine ⟨_, _, hrun, (pairwise_blockRun _ _).filter _, hmem, by omega, ?_, ?_, fun x hx => ?_,
    fun x hx hle => ?_⟩
  · exact (hbelow _).mp (by omega)
  · by_cases hl : last < a / hardbs + k - 1
    · exact Or.inr ((hmem _).mpr ⟨hl, (blockOf_iff hhb hsz _).mpr ⟨by rw [← ha]; omega,
        by rw [← he, ← hbelow]; omega⟩⟩)
    · exact Or.inl (by omega)
  · have := mem_blockRun.mp (List.mem_filter.mp hx).1
    omega
  · have := ((blockOf_iff hhb hsz x).mp hx).1
    rw [← ha] at this
    omega

/-- What holds of `last_block` and the blocks printed so far between two
passes of the outer loop: the printed blocks ascend strictly, none is above
`last_block`, and `last_block` is the initial `-1` or the last one printed. -/
structure PrintState (last : ℤ) (out : List ℤ) : Prop where
  /-- The printed blocks ascend strictly. -/
  sorted : out.Pairwise (· < ·)
  /-- No printed block is above `last_block`. -/
  le_last : ∀ x ∈ out, x ≤ last
  /-- `last_block` is below every block, or was printed. -/
  last_mem : last < 0 ∨ last ∈ out

/-- Printing ascending blocks above `last_block`, and moving `last_block` up to
the last of them, keeps the print state. -/
theorem PrintState.append {last last' : ℤ} {out new : List ℤ} (hst : PrintState last out)
    (hnew : new.Pairwise (· < ·)) (habove : ∀ x ∈ new, last < x) (hle : last ≤ last')
    (hnewle : ∀ x ∈ new, x ≤ last') (hlast' : last' = last ∨ last' ∈ new) :
    PrintState last' (out ++ new) := by
  refine ⟨List.pairwise_append.mpr ⟨hst.sorted, hnew, fun x hx y hy => ?_⟩, fun x hx => ?_, ?_⟩
  · have := hst.le_last x hx
    have := habove y hy
    omega
  · rcases List.mem_append.mp hx with hx | hx
    · have := hst.le_last x hx
      omega
    · exact hnewle x hx
  · rcases hlast' with rfl | h
    · exact hst.last_mem.imp_right (List.mem_append_left _)
    · exact Or.inr (List.mem_append_right _ h)

/-- The outer loop over sblocks in order, each nonempty and at a nonnegative
shifted position, entered with `last_block` not past the first block of any of
them: it never panics, and appends exactly the blocks of the chosen sblocks,
keeping the printed list strictly ascending. -/
theorem foldlM_toBadblocksBody {offset : ℤ} {hardbs : ℕ} (hhb : 0 < hardbs)
    (blocktypes : List Char) :
    ∀ (L : List Sblock) (last : ℤ) (out : List ℤ),
      L.Pairwise (fun a b => a.pos + a.size ≤ b.pos) →
      (∀ sb ∈ L, 0 < sb.size ∧ 0 ≤ (sb.pos : ℤ) + offset) →
      PrintState last out → (∀ sb ∈ L, last * hardbs ≤ sb.pos + offset) →
      ∃ last' out', L.foldlM (toBadblocksBody offset hardbs blocktypes) (last, out) =
          some (last', out') ∧ out'.Pairwise (· < ·) ∧
        ∀ x, x ∈ out' ↔ x ∈ out ∨
          ∃ sb ∈ L, sb.status.toChar ∈ blocktypes ∧ BlockOf offset hardbs sb x
  | [], last, out, _, _, hst, _ => ⟨last, out, rfl, hst.sorted, by simp⟩
  | sb :: rest, last, out, hsorted, hsb, hst, hnext => by
    obtain ⟨hsbrest, hrest⟩ := List.pairwise_cons.mp hsorted
    have hsb0 := hsb sb (List.mem_cons_self _ _)
    have hsbR : ∀ x ∈ rest, 0 < x.size ∧ 0 ≤ (x.pos : ℤ) + offset :=
      fun x hx => hsb x (List.mem_cons_of_mem _ hx)
    by_cases hsel : sb.status.toChar ∈ blocktypes
    · obtain ⟨last', new, hrun, hnew, hmem, hle, hend, hlast', hnewle, hold⟩ :=
        printBlocks_sblock hhb hsb0.1 hsb0.2 (hnext sb (List.mem_cons_self _ _)) out
      have hst' := hst.append hnew (fun y hy => ((hmem y).mp hy).1) hle hnewle hlast'
      obtain ⟨l₂, o₂, h₂, hs₂, hm₂⟩ := foldlM_toBadblocksBody hhb blocktypes rest last' (out ++ new)
        hrest hsbR hst' fun y hy => by have := hsbrest y hy; push_cast at this; omega
      -- a block of `sb` not above `last_block` is `last_block` itself, printed before
      have hout : ∀ x, x ∈ out ++ new ↔ x ∈ out ∨ BlockOf offset hardbs sb x := fun x => by
        rw [List.mem_append, hmem]
        by_cases hlt : last < x
        · simp only [hlt, true_and]
        · refine ⟨fun h => h.imp_right And.right, fun h => h.elim Or.inl fun hB => ?_⟩
          obtain ⟨hx0, rfl⟩ := hold x hB (by omega)
          exact Or.inl (hst.last_mem.resolve_left (by omega))
      refine ⟨l₂, o₂, by simp [toBadblocksBody, hsel, hrun, h₂], hs₂, fun x => ?_⟩
      simp only [hm₂, hout, List.mem_cons, exists_eq_or_imp, hsel, true_and, or_assoc]
    · obtain ⟨l₂, o₂, h₂, hs₂, hm₂⟩ := foldlM_toBadblocksBody hhb blocktypes rest last out hrest hsbR
        hst fun y hy => hnext y (List.mem_cons_of_mem _ hy)
      refine ⟨l₂, o₂, by simp [toBadblocksBody, hsel, h₂], hs₂, fun x => ?_⟩
      simp only [hm₂, List.mem_cons, exists_eq_or_imp, hsel, false_and, false_or]

/-- `ddrescuelog --list-blocks`: on a valid logbook, with `hardbs ≥ 1` and an
offset that keeps every byte of the domain at a nonnegative position,
`to_badblocks` never panics, and prints in strictly ascending order exactly the
numbers `(p + offset) / hardbs` of the bytes `p` of the domain whose status is
chosen. -/
theorem toBadblocks_spec {A : Logbook} (hA : A.Valid) {hardbs : ℕ} (hhb : 1 ≤ hardbs)
    {offset : ℤ} (hoff : ∀ p : ℕ, A.domain.includesPos p = true → 0 ≤ (p : ℤ) + offset)
    (blocktypes : List Char) :
    ∃ out, toBadblocks offset A hardbs blocktypes = some out ∧ out.Pairwise (· < ·) ∧
      ∀ x, x ∈ out ↔ ∃ p : ℕ, A.domain.includesPos p = true ∧
        (∃ st, statusAt A.sblocks p = some st ∧ st.toChar ∈ blocktypes) ∧
        x = (p + offset) / hardbs := by
  obtain ⟨s, hs⟩ := hA.tiles
  unfold toBadblocks
  split_ifs with hsize
  · -- an empty domain: nothing is printed, and the domain has no byte
    have hnil : A.domain.blocks = [] := by
      by_contra hne
      have := hA.domain.size_pos hne
      omega
    exact ⟨[], rfl, List.Pairwise.nil, fun x => by simp [Domain.includesPos, hnil]⟩
  · have hL := scan_sublist A.domain A.sblocks
    have hpos : ∀ sb ∈ scan A.domain A.sblocks, 0 < sb.size ∧ 0 ≤ (sb.pos : ℤ) + offset :=
      fun sb hsb => by
        have hsz := size_pos_of_mem_tiles hs (hL.subset hsb)
        exact ⟨hsz, hoff _ (Domain.includesPos_of_includes (mem_scan hsb).2 ⟨le_rfl, by omega⟩)⟩
    obtain ⟨last', out', hrun, hsorted, hmem⟩ := foldlM_toBadblocksBody (show 0 < hardbs by omega) blocktypes
      (scan A.domain A.sblocks) (-1) [] ((List.pairwise_map.mp (sorted_of_tiles hs)).sublist hL)
      hpos ⟨List.Pairwise.nil, by simp, Or.inl (by omega)⟩
      fun sb hsb => by have := (hpos sb hsb).2; omega
    refine ⟨out', by rw [hrun]; rfl, hsorted, fun x => ?_⟩
    rw [hmem]
    constructor
    · rintro (h | ⟨sb, hsb, hsel, p, h1, h2, rfl⟩)
      · cases h
      · exact ⟨p, Domain.includesPos_of_includes (mem_scan hsb).2 ⟨h1, h2⟩,
          ⟨sb.status, statusAt_of_mem hs (mem_scan hsb).1 ⟨h1, h2⟩, hsel⟩, rfl⟩
    · rintro ⟨p, hp, ⟨st, hst, hsel⟩, rfl⟩
      obtain ⟨sb, hsb, h1, h2, hst'⟩ := hA.exists_scan hp
      rw [hst', Option.some.injEq] at hst
      exact Or.inr ⟨sb, hsb, hst ▸ hsel, p, h1, h2, rfl⟩

/-- The law on a logbook whose second half is bad, listing bad-sector blocks of
512 bytes. -/
theorem toBadblocks_spec_halves :
    let A : Logbook := ⟨[⟨⟨0, 1024⟩, .finished⟩, ⟨⟨1024, 1024⟩, .badSector⟩], ⟨[⟨0, 2048⟩]⟩⟩
    A.Valid ∧ 1 ≤ 512 ∧ (∀ p : ℕ, A.domain.includesPos p = true → 0 ≤ (p : ℤ) + 0) ∧
      ∃ out, toBadblocks 0 A 512 ['-'] = some out ∧ out.Pairwise (· < ·) ∧
        ∀ x, x ∈ out ↔ ∃ p : ℕ, A.domain.includesPos p = true ∧
          (∃ st, statusAt A.sblocks p = some st ∧ st.toChar ∈ ['-']) ∧ x = (p + 0) / (512 : ℕ) := by
  intro A
  have hA : A.Valid := .of_check (by decide)
  have hoff : ∀ p : ℕ, A.domain.includesPos p = true → 0 ≤ (p : ℤ) + 0 := fun p _ => by omega
  exact ⟨hA, by decide, hoff, toBadblocks_spec hA (by decide) hoff ['-']⟩

example :
    toBadblocks 0 ⟨[⟨⟨0, 1024⟩, .finished⟩, ⟨⟨1024, 1024⟩, .badSector⟩], ⟨[⟨0, 2048⟩]⟩⟩ 512 ['-'] =
      some [2, 3] := by
  decide

/-- Valid logbooks, sector sizes and offsets on which the loop of `to_badblocks` leaves
the `long long` range. With `-o` at `LLONG_MAX` and `-i` at 0 (so `offset =
LLONG_MAX`) and a bad first sector, the listing should be the blocks `2^54 - 1` and
`2^54`, but `sb.end() + offset` is `LLONG_MAX + 512`. With no offset and a bad byte
just below `LLONG_MAX`, the loop prints block `2^62 - 1` and then tests block `2^62`,
where `block * hardbs` is `2^63`. -/
theorem toBadblocks_long_long_overflow :
    let A : Logbook := ⟨[⟨⟨0, 512⟩, .badSector⟩], ⟨[⟨0, 512⟩]⟩⟩
    let B : Logbook := ⟨[⟨⟨0, 9223372036854775806⟩, .finished⟩,
      ⟨⟨9223372036854775806, 1⟩, .badSector⟩], ⟨[⟨0, 9223372036854775807⟩]⟩⟩
    A.Valid ∧ toBadblocks (llongMax - 0) A 512 ['-'] = some [2 ^ 54 - 1, 2 ^ 54] ∧
      ¬FitsLongLong ((0 + 512 : ℕ) + (llongMax - 0)) ∧
    B.Valid ∧ toBadblocks 0 B 2 ['-'] = some [2 ^ 62 - 1] ∧
      ¬FitsLongLong ((2 ^ 62 - 1 + 1) * 2) :=
  ⟨.of_check (by decide), by decide, by decide, .of_check (by decide), by decide, by decide⟩

end Ddrescue
