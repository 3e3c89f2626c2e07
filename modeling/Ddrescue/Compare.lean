import Ddrescue.Mutators

/-!
# `compare_logfiles`

`ddrescuelog --compare-logfile` loads two logbooks over one requested domain
and exits with status 0 when they agree. `verify_logname_and_domain` first
exits with status 0 when either effective domain is empty ("Empty domain.").
After that the function checks that the two effective domains are equal, and
then only that every sblock of the first logbook inside the domain is an sblock
of the second (`find_index` and `operator!=`).

On logbooks in the canonical form the Logbook constructor leaves, this
one-sided check on the representation means the same as agreement of the two
logbooks on every byte of the domain (`compareLogfiles_spec`). An empty
effective domain on either side gives exit status 0
(`compareLogfiles_of_empty_domain`), even when the other is not empty and the
two differ (`compareLogfiles_empty_domain`).
-/

namespace Ddrescue

/-- The form the Logbook constructor leaves a vector in. `compact_sblock_vector`
joins adjacent sblocks of one status, and `split_domain_border_sblocks` then
cuts sblocks only at the borders of domain blocks. So two adjacent sblocks of
one status meet only where a domain block starts or ends. -/
def Logbook.Canonical (lb : Logbook) : Prop :=
  lb.sblocks.Chain' fun a b =>
    a.status = b.status → ∃ db ∈ lb.domain.blocks, db.pos = b.pos ∨ db.pos + db.size = b.pos

/-- A byte with a status right after a member of a tiling starts the next
member. -/
theorem exists_next_of_tiles {s : ℕ} {l : List Sblock} (h : Tiles s l) {a : Sblock} (ha : a ∈ l)
    (hsome : (statusAt l (a.pos + a.size)).isSome) : ∃ y ∈ l, y.pos = a.pos + a.size := by
  obtain ⟨l₁, l₂, rfl⟩ := List.append_of_mem ha
  cases l₂ with
  | nil =>
    rw [statusAt_eq_none_of_tiles h (Or.inr (by simp [tileEnd_append]))] at hsome
    cases hsome
  | cons y rest => exact ⟨y, by simp, (Tiles_append.mp h).2.2.2.1⟩

/-- In a canonical logbook no sblock starts at a byte strictly inside a domain
block when that byte has the status of the byte before it. -/
theorem Logbook.Canonical.pos_ne {L : Logbook} (hv : L.Valid) (hc : L.Canonical) {D : Block}
    (hD : D ∈ L.domain.blocks) {q : ℕ} (hq : D.pos < q ∧ q < D.pos + D.size)
    (heq : statusAt L.sblocks (q - 1) = statusAt L.sblocks q) {x : Sblock} (hx : x ∈ L.sblocks) :
    x.pos ≠ q := by
  intro hxq
  obtain ⟨s, hs⟩ := hv.tiles
  have hsome : (statusAt L.sblocks (q - 1)).isSome :=
    hv.covered _ ((Domain.includesPos_iff _ _).mpr ⟨D, hD, by omega, by omega⟩)
  unfold Logbook.Canonical at hc
  obtain ⟨l₁, l₂, hl⟩ := List.append_of_mem hx
  rw [hl] at hs hsome heq hc
  rcases List.eq_nil_or_concat l₁ with rfl | ⟨l₀, a, rfl⟩
  · -- `x` is the first sblock: byte `q - 1` lies before the vector
    have hstart : x.pos = s := by simpa using hs.1
    rw [statusAt_eq_none_of_tiles hs (Or.inl (by omega))] at hsome
    cases hsome
  · -- `x` follows some `a`, which ends at `q`
    rw [List.concat_eq_append, List.append_assoc, List.singleton_append] at hs hsome heq hc
    obtain ⟨-, ha, hxa, hx0, -⟩ := (Tiles_append.mp hs).2
    have h₁ := statusAt_of_mem hs (show a ∈ l₀ ++ a :: x :: l₂ by simp) (p := q - 1)
      ⟨by omega, by omega⟩
    have h₂ := statusAt_of_mem hs (show x ∈ l₀ ++ a :: x :: l₂ by simp) (p := q)
      ⟨by omega, by omega⟩
    obtain ⟨db, hdb, hb⟩ := (List.chain'_cons.mp (List.chain'_split.mp hc).2).1
      (Option.some.inj (h₁.symm.trans (heq.trans h₂)))
    have := hv.domain.border_not_inside hD hdb hq
    omega

/-- In a canonical logbook no sblock ends at a byte strictly inside a domain block
when that byte has the sblock's status. -/
theorem Logbook.Canonical.end_ne {L : Logbook} (hv : L.Valid) (hc : L.Canonical) {D : Block}
    (hD : D ∈ L.domain.blocks) {a : Sblock} (ha : a ∈ L.sblocks)
    (hq : D.pos < a.pos + a.size ∧ a.pos + a.size < D.pos + D.size)
    (hst : statusAt L.sblocks (a.pos + a.size) = some a.status) : False := by
  obtain ⟨s, hs⟩ := hv.tiles
  have hsz := size_pos_of_mem_tiles hs ha
  obtain ⟨y, hy, hyp⟩ := exists_next_of_tiles hs ha (by rw [hst]; rfl)
  exact hc.pos_ne hv hD hq (by rw [statusAt_of_mem hs ha ⟨by omega, by omega⟩, hst]) hy hyp

/-- Two valid canonical logbooks over one domain that agree on every byte of
it: each sblock of the first inside the domain is an sblock of the second. -/
theorem mem_of_agree {A B : Logbook} (hA : A.Valid) (hB : B.Valid) (hcA : A.Canonical)
    (hcB : B.Canonical) (hdom : A.domain = B.domain)
    (hagree : ∀ p, A.domain.includesPos p = true → statusAt A.sblocks p = statusAt B.sblocks p)
    {sb : Sblock} (hsb : sb ∈ A.sblocks) (hin : A.domain.includes sb.toBlock = true) :
    sb ∈ B.sblocks := by
  obtain ⟨sA, hsA⟩ := hA.tiles
  obtain ⟨sB, hsB⟩ := hB.tiles
  have hsz := size_pos_of_mem_tiles hsA hsb
  have hinc : ∀ D ∈ A.domain.blocks, ∀ p, D.pos ≤ p → p < D.pos + D.size →
      A.domain.includesPos p = true :=
    fun D hD p h1 h2 => (Domain.includesPos_iff _ _).mpr ⟨D, hD, h1, h2⟩
  obtain ⟨D, hD, hD1, hD2⟩ := (Domain.includes_iff _ _).mp hin
  obtain ⟨x, hx, hxp⟩ := exists_mem_of_statusAt_isSome
    (hB.covered sb.pos (hdom ▸ hinc D hD _ hD1 (by omega)))
  -- `x` lies inside a block `D'` of the domain
  obtain ⟨D', hD', hD'1, hD'2⟩ :
      ∃ D' ∈ A.domain.blocks, D'.pos ≤ x.pos ∧ x.pos + x.size ≤ D'.pos + D'.size := by
    rcases hB.respects x hx with h | h
    · exact hdom ▸ (Domain.includes_iff _ _).mp h
    · have := h sb.pos hxp.1 hxp.2
      rw [← hdom, hinc D hD _ hD1 (by omega)] at this
      cases this
  have hAx : ∀ p, x.pos ≤ p → p < x.pos + x.size → statusAt A.sblocks p = some x.status :=
    fun p h1 h2 => (hagree p (hinc D' hD' p (by omega) (by omega))).trans
      (statusAt_of_mem hsB hx ⟨h1, h2⟩)
  have hBsb : ∀ p, sb.pos ≤ p → p < sb.pos + sb.size → statusAt B.sblocks p = some sb.status :=
    fun p h1 h2 => (hagree p (hinc D hD p (by omega) (by omega))).symm.trans
      (statusAt_of_mem hsA hsb ⟨h1, h2⟩)
  have hst : x.status = sb.status :=
    Option.some.inj ((statusAt_of_mem hsB hx hxp).symm.trans (hBsb _ le_rfl (by omega)))
  have hpos : x.pos = sb.pos := by
    by_contra hne
    exact hcA.pos_ne hA hD' (q := sb.pos) ⟨by omega, by omega⟩
      (by rw [hAx _ (by omega) (by omega), hAx _ (by omega) (by omega)]) hsb rfl
  have hend : x.pos + x.size = sb.pos + sb.size := by
    rcases lt_trichotomy (x.pos + x.size) (sb.pos + sb.size) with h | h | h
    · -- `B` would start an sblock inside `sb`
      exact (hcB.end_ne hB (hdom ▸ hD) hx ⟨by omega, by omega⟩
        (by rw [hBsb _ (by omega) h, hst])).elim
    · exact h
    · -- `A` would start an sblock inside `x`
      exact (hcA.end_ne hA hD' hsb ⟨by omega, by omega⟩ (by rw [hAx _ (by omega) h, hst])).elim
  have hx_eq : x = sb := by
    obtain ⟨⟨xp, xs⟩, xst⟩ := x
    obtain ⟨⟨sp, ss⟩, sst⟩ := sb
    simp only [Sblock.mk.injEq, Block.mk.injEq] at hpos hend hst ⊢
    exact ⟨⟨hpos, by omega⟩, hst⟩
  exact hx_eq ▸ hx

/-- `logbook2.find_index( sb.pos() )` finds an sblock of the second vector
equal to `sb`. -/
def matchesSblock (sbs : List Sblock) (sb : Sblock) : Bool :=
  match locate sb.pos sbs with
  | some (_, x, _) => x == sb
  | none => false

theorem mem_of_matchesSblock {sbs : List Sblock} {sb : Sblock} (h : matchesSblock sbs sb = true) :
    sb ∈ sbs := by
  unfold matchesSblock at h
  split at h
  · rename_i pre x post hloc
    rw [(locate_eq_some hloc).1, beq_iff_eq.mp h]
    simp
  · cases h

theorem matchesSblock_of_mem {s : ℕ} {sbs : List Sblock} (hs : Tiles s sbs) {sb : Sblock}
    (hsb : sb ∈ sbs) : matchesSblock sbs sb = true := by
  obtain ⟨l₁, l₂, rfl⟩ := List.append_of_mem hsb
  have := size_pos_of_mem_tiles hs hsb
  simp [matchesSblock, locate_of_tiles hs ⟨le_rfl, (by omega : sb.pos < sb.pos + sb.size)⟩]

/-- `compare_logfiles`: the exit status. `verify_logname_and_domain` exits
with status 0 when an effective domain is empty; the loop breaks at the first
sblock of the domain that has no equal sblock in the second vector. -/
def compareLogfiles (A B : Logbook) : ℕ :=
  if A.domain.size = 0 ∨ B.domain.size = 0 then 0
  else if A.domain ≠ B.domain then 1
  else if (scan A.domain A.sblocks).all (matchesSblock B.sblocks) then 0
  else 1

/-- On valid canonical logbooks with nonempty effective domains,
`compare_logfiles` exits with status 0 exactly when the domains are equal and
the logbooks agree on every byte of the domain. -/
theorem compareLogfiles_eq_zero_iff {A B : Logbook} (hA : A.Valid) (hB : B.Valid)
    (hcA : A.Canonical) (hcB : B.Canonical) (hneA : A.domain.blocks ≠ [])
    (hneB : B.domain.blocks ≠ []) :
    compareLogfiles A B = 0 ↔ A.domain = B.domain ∧
      ∀ p, A.domain.includesPos p = true → statusAt A.sblocks p = statusAt B.sblocks p := by
  have hszA := hA.domain.size_pos hneA
  have hszB := hB.domain.size_pos hneB
  obtain ⟨sB, hsB⟩ := hB.tiles
  unfold compareLogfiles
  rw [if_neg (by omega)]
  by_cases hdom : A.domain = B.domain
  · rw [if_neg (not_not.mpr hdom)]
    constructor
    · intro h
      split_ifs at h with hall
      refine ⟨hdom, fun p hp => ?_⟩
      obtain ⟨sb, hsb, hp1, hp2, hAp⟩ := hA.exists_scan hp
      rw [hAp, statusAt_of_mem hsB (mem_of_matchesSblock (List.all_eq_true.mp hall sb hsb)) ⟨hp1, hp2⟩]
    · rintro ⟨-, hagree⟩
      rw [if_pos (List.all_eq_true.mpr fun sb hsb => matchesSblock_of_mem hsB
        (mem_of_agree hA hB hcA hcB hdom hagree (mem_scan hsb).1 (mem_scan hsb).2))]
  · rw [if_pos hdom]
    simp [hdom]

theorem compareLogfiles_le_one (A B : Logbook) : compareLogfiles A B ≤ 1 := by
  unfold compareLogfiles
  split_ifs <;> omega

/-- An empty effective domain on either side ends `compare_logfiles` in
`verify_logname_and_domain` with exit status 0, whatever the other logbook holds. -/
theorem compareLogfiles_of_empty_domain (A B : Logbook)
    (h : A.domain.size = 0 ∨ B.domain.size = 0) : compareLogfiles A B = 0 :=
  if_pos h

/-- A domain of nonzero size has a block. -/
theorem Domain.blocks_ne_nil_of_size {d : Domain} (h : d.size ≠ 0) : d.blocks ≠ [] :=
  fun hb => h (by simp [Domain.size, hb])

/-- `ddrescuelog --compare-logfile` on valid canonical logbooks: an empty effective
domain on either side gives exit status 0 before any comparison; with nonempty
domains, exit status 0 exactly when the domains are equal and every byte of the
domain has one status in both. So comparing a logbook with itself gives 0, and
swapping the two logfiles gives the same status. -/
theorem compareLogfiles_spec {A B : Logbook} (hA : A.Valid) (hB : B.Valid) (hcA : A.Canonical)
    (hcB : B.Canonical) :
    (A.domain.size = 0 ∨ B.domain.size = 0 → compareLogfiles A B = 0) ∧
    (A.domain.blocks ≠ [] → B.domain.blocks ≠ [] →
      (compareLogfiles A B = 0 ↔ A.domain = B.domain ∧
        ∀ p, A.domain.includesPos p = true → statusAt A.sblocks p = statusAt B.sblocks p)) ∧
    compareLogfiles A A = 0 ∧ compareLogfiles B A = compareLogfiles A B := by
  refine ⟨compareLogfiles_of_empty_domain A B, compareLogfiles_eq_zero_iff hA hB hcA hcB, ?_, ?_⟩
  · by_cases hz : A.domain.size = 0
    · exact compareLogfiles_of_empty_domain A A (.inl hz)
    · have hne := Domain.blocks_ne_nil_of_size hz
      exact (compareLogfiles_eq_zero_iff hA hA hcA hcA hne hne).mpr ⟨rfl, fun _ _ => rfl⟩
  · by_cases hz : A.domain.size = 0 ∨ B.domain.size = 0
    · rw [compareLogfiles_of_empty_domain A B hz, compareLogfiles_of_empty_domain B A hz.symm]
    · -- both domains have blocks: the two verdicts agree on 0, and each is at most 1
      have hneA := Domain.blocks_ne_nil_of_size fun h => hz (.inl h)
      have hneB := Domain.blocks_ne_nil_of_size fun h => hz (.inr h)
      have hiff : compareLogfiles B A = 0 ↔ compareLogfiles A B = 0 := by
        rw [compareLogfiles_eq_zero_iff hA hB hcA hcB hneA hneB,
          compareLogfiles_eq_zero_iff hB hA hcB hcA hneB hneA]
        constructor <;> rintro ⟨hdom, h⟩ <;> refine ⟨hdom.symm, fun p hp => (h p ?_).symm⟩ <;>
          simpa [hdom] using hp
      have := compareLogfiles_le_one A B
      have := compareLogfiles_le_one B A
      omega

/-- The law on two logbooks over one domain that differ in the second half. -/
theorem compareLogfiles_spec_halves :
    let A : Logbook := ⟨[⟨⟨0, 50⟩, .finished⟩, ⟨⟨50, 50⟩, .badSector⟩], ⟨[⟨0, 100⟩]⟩⟩
    let B : Logbook := ⟨[⟨⟨0, 100⟩, .finished⟩], ⟨[⟨0, 100⟩]⟩⟩
    A.Valid ∧ B.Valid ∧ A.Canonical ∧ B.Canonical ∧
      ((A.domain.size = 0 ∨ B.domain.size = 0 → compareLogfiles A B = 0) ∧
      (A.domain.blocks ≠ [] → B.domain.blocks ≠ [] →
        (compareLogfiles A B = 0 ↔ A.domain = B.domain ∧
          ∀ p, A.domain.includesPos p = true → statusAt A.sblocks p = statusAt B.sblocks p)) ∧
      compareLogfiles A A = 0 ∧ compareLogfiles B A = compareLogfiles A B) := by
  intro A B
  have hA : A.Valid := .of_check (by decide)
  have hB : B.Valid := .of_check (by decide)
  have hcA : A.Canonical := by simp [A, Logbook.Canonical]
  have hcB : B.Canonical := by simp [B, Logbook.Canonical]
  exact ⟨hA, hB, hcA, hcB, compareLogfiles_spec hA hB hcA hcB⟩

/-- An empty effective domain on one side only: `verify_logname_and_domain`
exits with status 0 although the effective domains differ. -/
theorem compareLogfiles_empty_domain :
    let A : Logbook := ⟨[⟨⟨0, 100⟩, .finished⟩], ⟨[]⟩⟩
    let B : Logbook := ⟨[⟨⟨0, 200⟩, .finished⟩, ⟨⟨200, 100⟩, .finished⟩,
      ⟨⟨300, 700⟩, .finished⟩], ⟨[⟨200, 100⟩]⟩⟩
    A.Valid ∧ B.Valid ∧ A.Canonical ∧ B.Canonical ∧ A.domain ≠ B.domain ∧
      compareLogfiles A B = 0 := by
  intro A B
  exact ⟨.of_check (by decide), .of_check (by decide), by simp [A, Logbook.Canonical],
    by simp [B, Logbook.Canonical], by decide, by decide⟩

end Ddrescue
