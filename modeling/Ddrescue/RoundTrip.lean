import Ddrescue.ListBlocks
import Ddrescue.CreateLog

/-!
# The block list as a format: `--list-blocks`, then `--create-logfile`

`ddrescuelog --list-blocks=types` prints block numbers, and
`ddrescuelog --create-logfile=types` reads block numbers back into a new
logfile over the same domain. At offset 0 the pair is a round trip up to the
block size: byte `p` of the new logfile is `type1` exactly when the domain
includes its whole block of `hardbs` bytes and that block held a byte of the
domain with a listed status (`createLogfile_toBadblocks_status`). When every
sblock and every domain block is made of whole blocks of `hardbs` bytes, nothing
is lost: every byte of the domain is `type1` exactly when its own status was
listed (`createLogfile_toBadblocks_aligned`).

The proof joins two bridges, one per program: `toBadblocks_zero` says which
blocks `to_badblocks` prints, and `CreateInv` which bytes `create_logfile`
marks; the alignment lemmas say that statuses and the domain do not change
inside a block.
-/

namespace Ddrescue

/-- Block `p / h` holds byte `p`: it runs from `p / h * h` for `h` bytes. -/
theorem div_eq_iff_block {h : ℕ} (hh : 0 < h) {p n : ℕ} :
    p / h = n ↔ n * h ≤ p ∧ p < n * h + h := by
  constructor
  · rintro rfl
    exact ⟨Nat.div_mul_le_self p h, Nat.lt_div_mul_add hh⟩
  · rintro ⟨h1, h2⟩
    exact Nat.div_eq_of_lt_le h1 (by rwa [Nat.succ_mul])

/-- Block `n` of `hardbs` bytes holds a byte of the domain whose status is one
of `blocktypes`: the blocks `--list-blocks` is meant to print at offset 0. -/
def blockListed (A : Logbook) (hardbs : ℕ) (blocktypes : List Char) (n : ℕ) : Bool :=
  (List.range' (n * hardbs) hardbs).any fun q =>
    A.domain.includesPos q && (statusAt A.sblocks q).any (·.toChar ∈ blocktypes)

theorem blockListed_iff {A : Logbook} {hardbs : ℕ} {blocktypes : List Char} {n : ℕ} :
    blockListed A hardbs blocktypes n = true ↔ ∃ q, n * hardbs ≤ q ∧ q < n * hardbs + hardbs ∧
      A.domain.includesPos q = true ∧ ∃ st, statusAt A.sblocks q = some st ∧ st.toChar ∈ blocktypes := by
  simp only [blockListed, List.any_eq_true, List.mem_range'_1, Bool.and_eq_true]
  refine exists_congr fun q => ?_
  cases statusAt A.sblocks q <;> simp [and_assoc]

/-- `to_badblocks` at offset 0, seen block by block: on a valid logbook it
prints only block numbers of naturals, and prints `n` exactly when block `n`
holds a byte of the domain with a listed status. -/
theorem toBadblocks_zero {A : Logbook} (hA : A.Valid) {hardbs : ℕ} (hhb : 0 < hardbs)
    (blocktypes : List Char) :
    ∃ out, toBadblocks 0 A hardbs blocktypes = some out ∧ (∀ x ∈ out, 0 ≤ x) ∧
      ∀ n : ℕ, (n : ℤ) ∈ out ↔ blockListed A hardbs blocktypes n = true := by
  obtain ⟨s, hs⟩ := hA.tiles
  unfold toBadblocks
  split_ifs with hsize
  · -- an empty domain: nothing is printed, and the domain has no byte
    have hnil : A.domain.blocks = [] := by
      by_contra hne
      have := hA.domain.size_pos hne
      omega
    refine ⟨[], rfl, by simp, fun n => ?_⟩
    simp [blockListed, Domain.includesPos, hnil]
  · have hL := scan_sublist A.domain A.sblocks
    obtain ⟨_, out, hrun, -, hmem⟩ := @foldlM_toBadblocksBody 0 hardbs hhb blocktypes
      (scan A.domain A.sblocks) (-1) [] ((List.pairwise_map.mp (sorted_of_tiles hs)).sublist hL)
      (fun sb hsb => ⟨size_pos_of_mem_tiles hs (hL.subset hsb), by omega⟩)
      ⟨List.Pairwise.nil, by simp, Or.inl (by omega)⟩ fun _ _ => by omega
    refine ⟨out, by rw [hrun]; rfl, fun x hx => ?_, fun n => ?_⟩
    · obtain h | ⟨_, -, -, p, -, -, rfl⟩ := (hmem x).mp hx
      · cases h
      · exact Int.ediv_nonneg (by omega) (by omega)
    · have hblock : ∀ p : ℕ, (n : ℤ) = ((p : ℤ) + 0) / hardbs ↔ p / hardbs = n := fun p => by
        rw [add_zero, ← Int.ofNat_ediv, Nat.cast_inj, eq_comm]
      simp only [hmem, List.not_mem_nil, false_or, BlockOf, hblock, div_eq_iff_block hhb,
        blockListed_iff]
      constructor
      · rintro ⟨sb, hsb, hsel, p, h1, h2, hp⟩
        exact ⟨p, hp.1, hp.2, Domain.includesPos_of_includes (mem_scan hsb).2 ⟨h1, h2⟩,
          sb.status, statusAt_of_mem hs (mem_scan hsb).1 ⟨h1, h2⟩, hsel⟩
      · rintro ⟨q, h1, h2, hq, st, hst, hsel⟩
        obtain ⟨sb, hsb, g1, g2, hst'⟩ := hA.exists_scan hq
        rw [hst', Option.some.injEq] at hst
        exact ⟨sb, hsb, hst ▸ hsel, q, g1, g2, h1, h2⟩

/-- A byte is marked by `create_logfile` exactly when the number of its own
block was read and the domain includes that block. -/
theorem marked_iff {d : Domain} {hardbs : ℕ} (hhb : 0 < hardbs) {ns : List ℕ} {p : ℕ} :
    Marked d hardbs ns p ↔ p / hardbs ∈ ns ∧ d.includes ⟨p / hardbs * hardbs, hardbs⟩ = true := by
  constructor
  · rintro ⟨n, hn, hin, h1, h2⟩
    obtain rfl : p / hardbs = n := (div_eq_iff_block hhb).2 ⟨h1, by rwa [Nat.succ_mul] at h2⟩
    exact ⟨hn, hin⟩
  · rintro ⟨hn, hin⟩
    obtain ⟨h1, h2⟩ := (div_eq_iff_block hhb).1 (rfl : p / hardbs = p / hardbs)
    exact ⟨_, hn, hin, h1, by rwa [Nat.succ_mul]⟩

/-- A byte of a valid domain lies before its end. -/
theorem Domain.Valid.lt_endPos {d : Domain} (hd : d.Valid) {p : ℕ} (hp : d.includesPos p = true) :
    p < d.endPos := by
  obtain ⟨db, hdb, -, h2⟩ := (Domain.includesPos_iff _ _).mp hp
  exact lt_of_lt_of_le h2 (hd.end_le_endPos hdb)

/-- `--create-logfile` over the list `--list-blocks` prints at offset 0, on a
valid logbook with a nonempty domain that ends by `LLONG_MAX` at a block border
(so that the last block printed ends by `LLONG_MAX` too): every number is
accepted and the logfile is written, tiling the bytes up to the end of the
domain, and a byte there is `type1` exactly when the domain includes its whole
block and the block held a byte of the domain with a listed status. -/
theorem createLogfile_toBadblocks_status {A : Logbook} (hA : A.Valid)
    (hne : A.domain.blocks ≠ []) {hardbs : ℕ} (hhb : 0 < hardbs) (hdvd : hardbs ∣ A.domain.endPos)
    (hmax : (A.domain.endPos : ℤ) ≤ llongMax) (blocktypes : List Char) (type1 type2 : Status) :
    ∃ out r, toBadblocks 0 A hardbs blocktypes = some out ∧
      createLogfile A.domain hardbs type1 type2 false true (out.map some) = some (.written r) ∧
      Tiles 0 r ∧ tileEnd 0 r = A.domain.endPos ∧
      ∀ p < A.domain.endPos, statusAt r p = some
        (if A.domain.includes ⟨p / hardbs * hardbs, hardbs⟩ &&
            blockListed A hardbs blocktypes (p / hardbs) then type1 else type2) := by
  obtain ⟨out, hout, hnn, hmem⟩ := toBadblocks_zero hA hhb blocktypes
  -- the lines `create_logfile` reads are the naturals `to_badblocks` printed
  have hlines : (out.map Int.toNat).map (fun n : ℕ => some (n : ℤ)) = out.map some := by
    rw [List.map_map]
    exact List.map_congr_left fun x hx => by simp [Int.toNat_of_nonneg (hnn x hx)]
  have hmemN : ∀ n : ℕ, n ∈ out.map Int.toNat ↔ blockListed A hardbs blocktypes n = true :=
    fun n => by
      rw [← hmem, List.mem_map]
      constructor
      · rintro ⟨x, hx, rfl⟩
        rwa [Int.toNat_of_nonneg (hnn x hx)]
      · exact fun h => ⟨n, h, rfl⟩
  have hbound : ∀ n ∈ out.map Int.toNat, (n : ℤ) < llongMax / hardbs := fun n hn => by
    obtain ⟨q, h1, -, hq, -⟩ := blockListed_iff.mp ((hmemN n).mp hn)
    have hlt : n * hardbs < A.domain.endPos := lt_of_le_of_lt h1 (hA.domain.lt_endPos hq)
    -- the domain ends at a block border, so block `n` ends by the end of the domain
    obtain ⟨k, hk⟩ := hdvd
    have hle : (n + 1) * hardbs ≤ A.domain.endPos := by
      rw [hk, mul_comm hardbs] at hlt ⊢
      exact Nat.mul_le_mul_right _ (Nat.lt_of_mul_lt_mul_right hlt)
    have := Int.le_ediv_of_mul_le (show (0 : ℤ) < hardbs by exact_mod_cast hhb) <|
      calc ((n : ℤ) + 1) * hardbs = (((n + 1) * hardbs : ℕ) : ℤ) := by push_cast; rfl
        _ ≤ A.domain.endPos := by exact_mod_cast hle
        _ ≤ llongMax := hmax
    omega
  obtain ⟨r, hc, hinv⟩ := createLogfile_written hA.domain hne hhb type1 type2 _ hbound
  refine ⟨out, r, hout, hlines ▸ hc, hinv.tiles, hinv.tileEnd_eq, fun p hp => ?_⟩
  rw [hinv.status p hp]
  simp only [marked_iff hhb, hmemN, Bool.and_eq_true, and_comm]

/-! ## Aligned logbooks -/

/-- Block `b` starts and ends at multiples of `h`: it is made of whole blocks
of `h` bytes. -/
def Block.Aligned (h : ℕ) (b : Block) : Prop := h ∣ b.pos ∧ h ∣ b.size

instance (h : ℕ) (b : Block) : Decidable (b.Aligned h) := inferInstanceAs (Decidable (_ ∧ _))

/-- Every sblock and every block of the domain is made of whole blocks of `h`
bytes. -/
def Logbook.Aligned (h : ℕ) (lb : Logbook) : Prop :=
  (∀ sb ∈ lb.sblocks, sb.toBlock.Aligned h) ∧ ∀ db ∈ lb.domain.blocks, db.Aligned h

instance (h : ℕ) (lb : Logbook) : Decidable (lb.Aligned h) :=
  inferInstanceAs (Decidable (_ ∧ _))

section Aligned

variable {h : ℕ} (hh : 0 < h) {p q : ℕ} (hpq : p / h = q / h)
include hh hpq

/-- Two bytes of one block of `h` bytes lie on the same side of a multiple of `h`. -/
theorem le_iff_of_dvd {a : ℕ} (ha : h ∣ a) : a ≤ p ↔ a ≤ q := by
  obtain ⟨k, rfl⟩ := ha
  rw [mul_comm, ← Nat.le_div_iff_mul_le hh, ← Nat.le_div_iff_mul_le hh, hpq]

theorem lt_iff_of_dvd {a : ℕ} (ha : h ∣ a) : p < a ↔ q < a := by
  obtain ⟨k, rfl⟩ := ha
  rw [mul_comm, ← Nat.div_lt_iff_lt_mul hh, ← Nat.div_lt_iff_lt_mul hh, hpq]

/-- A block made of whole blocks of `h` bytes holds all or none of each of them. -/
theorem Block.Aligned.mem_iff {b : Block} (hb : b.Aligned h) :
    b.pos ≤ p ∧ p < b.pos + b.size ↔ b.pos ≤ q ∧ q < b.pos + b.size := by
  rw [le_iff_of_dvd hh hpq hb.1, lt_iff_of_dvd hh hpq (Nat.dvd_add hb.1 hb.2)]

/-- Over sblocks made of whole blocks of `h` bytes, the status is the same
throughout each block. -/
theorem statusAt_congr_of_aligned {l : List Sblock} (hal : ∀ sb ∈ l, sb.toBlock.Aligned h) :
    statusAt l p = statusAt l q := by
  induction l with
  | nil => rfl
  | cons sb rest ih =>
    rw [statusAt_cons, statusAt_cons, ih fun x hx => hal x (List.mem_cons_of_mem _ hx)]
    exact if_congr ((hal sb (List.mem_cons_self _ _)).mem_iff hh hpq) rfl rfl

end Aligned

/-- A domain made of whole blocks of `h` bytes ends at a multiple of `h`. -/
theorem Domain.dvd_endPos_of_aligned {d : Domain} {h : ℕ} (hal : ∀ db ∈ d.blocks, db.Aligned h) :
    h ∣ d.endPos := by
  unfold Domain.endPos
  split
  · rename_i last hlast
    have hb := hal last (List.mem_of_getLast?_eq_some hlast)
    exact Nat.dvd_add hb.1 hb.2
  · exact Nat.dvd_zero h

/-- A domain made of whole blocks of `h` bytes includes the whole block of each
of its bytes. -/
theorem Domain.includes_block_of_aligned {d : Domain} {h : ℕ} (hh : 0 < h)
    (hal : ∀ db ∈ d.blocks, db.Aligned h) {p : ℕ} (hp : d.includesPos p = true) :
    d.includes ⟨p / h * h, h⟩ = true := by
  obtain ⟨db, hdb, h1, h2⟩ := (Domain.includesPos_iff _ _).mp hp
  have hb := hal db hdb
  -- the first and the last byte of the block of `p` lie in `db`, as `p` does
  have hfirst : p / h = p / h * h / h := ((div_eq_iff_block hh).2 ⟨le_rfl, by omega⟩).symm
  have hlast : p / h = (p / h * h + h - 1) / h :=
    ((div_eq_iff_block hh).2 ⟨by omega, by omega⟩).symm
  have g1 := (le_iff_of_dvd hh hfirst hb.1).mp h1
  have g2 := (lt_iff_of_dvd hh hlast (Nat.dvd_add hb.1 hb.2)).mp h2
  exact (Domain.includes_iff _ _).mpr ⟨db, hdb, g1, by dsimp only; omega⟩

/-- On an aligned logbook, the block of a byte of the domain is listed exactly
when that byte's own status is listed. -/
theorem blockListed_of_aligned {A : Logbook} {hardbs : ℕ} (hhb : 0 < hardbs)
    (hal : A.Aligned hardbs) {blocktypes : List Char} {p : ℕ} {st : Status}
    (hp : A.domain.includesPos p = true) (hst : statusAt A.sblocks p = some st) :
    blockListed A hardbs blocktypes (p / hardbs) = true ↔ st.toChar ∈ blocktypes := by
  obtain ⟨h1, h2⟩ := (div_eq_iff_block hhb).1 (rfl : p / hardbs = p / hardbs)
  rw [blockListed_iff]
  constructor
  · rintro ⟨q, g1, g2, -, st', hst', hsel⟩
    have hq : p / hardbs = q / hardbs := ((div_eq_iff_block hhb).2 ⟨g1, g2⟩).symm
    rw [statusAt_congr_of_aligned hhb hq hal.1, hst', Option.some.injEq] at hst
    exact hst ▸ hsel
  · exact fun hsel => ⟨p, h1, h2, hp, st, hst, hsel⟩

/-- The block list round trip: on a valid logbook made of whole blocks of
`hardbs` bytes, with a nonempty domain that ends by `LLONG_MAX`,
`--create-logfile` over the numbers `--list-blocks` prints at offset 0 writes a
logfile in which every byte of the domain is `type1` when its status was listed
and `type2` when it was not. -/
theorem createLogfile_toBadblocks_aligned {A : Logbook} (hA : A.Valid)
    (hne : A.domain.blocks ≠ []) {hardbs : ℕ} (hhb : 0 < hardbs) (hal : A.Aligned hardbs)
    (hmax : (A.domain.endPos : ℤ) ≤ llongMax) (blocktypes : List Char) (type1 type2 : Status) :
    ∃ out r, toBadblocks 0 A hardbs blocktypes = some out ∧
      createLogfile A.domain hardbs type1 type2 false true (out.map some) = some (.written r) ∧
      ∀ p st, A.domain.includesPos p = true → statusAt A.sblocks p = some st →
        statusAt r p = some (if st.toChar ∈ blocktypes then type1 else type2) := by
  obtain ⟨out, r, hout, hc, -, -, hstatus⟩ :=
    createLogfile_toBadblocks_status hA hne hhb (A.domain.dvd_endPos_of_aligned hal.2) hmax
      blocktypes type1 type2
  refine ⟨out, r, hout, hc, fun p st hp hst => ?_⟩
  rw [hstatus p (hA.domain.lt_endPos hp), A.domain.includes_block_of_aligned hhb hal.2 hp,
    Bool.true_and]
  exact congrArg some (if_congr (blockListed_of_aligned hhb hal hp hst) rfl rfl)

/-- The round trip on a logbook whose second half is bad, in blocks of 512
bytes, listing the finished blocks. -/
theorem createLogfile_toBadblocks_halves :
    let A : Logbook := ⟨[⟨⟨0, 1024⟩, .finished⟩, ⟨⟨1024, 1024⟩, .badSector⟩], ⟨[⟨0, 2048⟩]⟩⟩
    A.Valid ∧ A.domain.blocks ≠ [] ∧ 0 < 512 ∧ A.Aligned 512 ∧ (A.domain.endPos : ℤ) ≤ llongMax ∧
      ∃ out r, toBadblocks 0 A 512 ['+'] = some out ∧
        createLogfile A.domain 512 .finished .badSector false true (out.map some) =
          some (.written r) ∧
        ∀ p st, A.domain.includesPos p = true → statusAt A.sblocks p = some st →
          statusAt r p = some (if st.toChar ∈ ['+'] then .finished else .badSector) := by
  intro A
  have hA : A.Valid := .of_check (by decide)
  have hne : A.domain.blocks ≠ [] := by decide
  have hal : A.Aligned 512 := by decide
  have hmax : (A.domain.endPos : ℤ) ≤ llongMax := by decide
  exact ⟨hA, hne, by decide, hal, hmax,
    createLogfile_toBadblocks_aligned hA hne (by decide) hal hmax ['+'] .finished .badSector⟩

/- Without alignment the list is coarser: the non-tried bytes from 700 to 1023
share a block with finished ones, and come back finished. -/
example :
    (toBadblocks 0 ⟨[⟨⟨0, 700⟩, .finished⟩, ⟨⟨700, 1348⟩, .nonTried⟩], ⟨[⟨0, 2048⟩]⟩⟩ 512
        ['+']).map (createLogfile ⟨[⟨0, 2048⟩]⟩ 512 .finished .badSector false true ∘ List.map some) =
      some (some (.written [⟨⟨0, 1024⟩, .finished⟩, ⟨⟨1024, 1024⟩, .badSector⟩])) := by
  decide

end Ddrescue
