import Ddrescue.LogicTermination

/-!
# What AND, OR and XOR keep

No mode of `do_logic_ops` meets its law (`LogicOps`), but a run of each still keeps
a bound on what it does to every byte. A pass rewrites bytes only inside the current
sblock, where its branch puts them, and the merges of `change_sblock_status` and
`change_chunk_status` change no byte's status. So every byte the written logfile
changes is a byte of `A`'s domain, and it takes the status of its branch: AND turns
bad-sector only bytes that `A` marks finished and `B` does not
(`doLogicOps_and_changes`), OR turns finished only bytes that `B` marks finished
(`doLogicOps_or_changes`), and XOR turns those finished or bad-sector
(`doLogicOps_xor_changes`). So AND and OR of a logfile with itself write it back
unchanged, and OR never touches a finished byte.

Each result is a property of every byte's status that each pass keeps; the loop
carries it to the end with `forSblocks_of_advances`, on the edges of
`LogicTermination` that make the run end (`doLogicOps_of_step`).
-/

namespace Ddrescue

section Run

variable {A B : Logbook}

/-- A run of `do_logic_ops` on valid logbooks with nonempty domains keeps every
property `G` of each byte's status that `A` has and that every pass on an sblock of
the domain keeps: it ends without panicking and writes a tiling all of whose bytes
have it. -/
theorem doLogicOps_of_step (hA : A.Valid) (hB : B.Valid) (hneA : A.domain.blocks ≠ [])
    (hneB : B.domain.blocks ≠ []) (mode : LogicMode)
    (G : ℕ → Option Status → Prop) (h0 : ∀ p, G p (statusAt A.sblocks p))
    (hstep : ∀ s done sb tl, Tiles s (done ++ sb :: tl) → A.domain.includes sb.toBlock = true →
      (∀ p, G p (statusAt (done ++ sb :: tl) p)) → ∀ v j,
        logicBody mode A.domain B (done ++ sb :: tl) done.length sb = some (v, j) →
        ∀ p, G p (statusAt v p)) :
    ∃ r, doLogicOps mode A B = some (.ok r) ∧ (∃ s, Tiles s r) ∧ ∀ p, G p (statusAt r p) := by
  let S := boundaries A.sblocks ++ boundaries B.sblocks
  have hBS : ∀ x ∈ B.sblocks, x.pos ∈ S ∧ x.pos + x.size ∈ S := fun x hx =>
    (edges_mem_boundaries hx).imp (List.mem_append_right _) (List.mem_append_right _)
  obtain ⟨r, hr, ⟨s, hrt⟩, hrG⟩ := forSblocks_of_advances hA
    (show ∀ x ∈ A.sblocks, x.pos ∈ S ∧ x.pos + x.size ∈ S from fun x hx =>
      (edges_mem_boundaries hx).imp (List.mem_append_left _) (List.mem_append_left _))
    (fun _ _ _ _ hb hin => hb.advances_logicBody hB hBS mode hin) G h0 hstep
  obtain ⟨hct, -, hcs⟩ := compactSblockVector_spec hrt
  exact ⟨compactSblockVector r, by rw [doLogicOps_of_ne hA hB hneA hneB, hr]; rfl, ⟨s, hct⟩,
    fun p => hcs p ▸ hrG p⟩

end Run

section Step

variable {A B : Logbook} {s : ℕ} {done tl : List Sblock} {sb : Sblock}
  {G : ℕ → Option Status → Prop}

/-- A vector that gives the bytes of `[lo, hi)` status `st` and keeps every other
byte's status keeps every property of the statuses that `st` has on those bytes. -/
theorem keeps_of_rewrite {old new : List Sblock} (hg : ∀ p, G p (statusAt old p)) {lo hi : ℕ}
    {st : Status} (hnew : ∀ p, statusAt new p = if lo ≤ p ∧ p < hi then some st else statusAt old p)
    (hG : ∀ p, lo ≤ p → p < hi → G p (some st)) : ∀ p, G p (statusAt new p) := fun p => by
  rw [hnew p]
  split_ifs with hp
  · exact hG p hp.1 hp.2
  · exact hg p

/-- The branches the OR and XOR bodies share, toward a status `st` other than that of
`sb`, keep every property of the bytes' statuses that `st` has on the bytes of `A`'s
domain that `B` marks finished: a change of status happens only inside the chunk. -/
theorem logicTail_keeps (ht : Tiles s (done ++ sb :: tl)) (hin : A.domain.includes sb.toBlock = true)
    {b : Block} (hc : ChunkSpec B.FinishedAt sb.toBlock b) (hg : ∀ p, G p (statusAt (done ++ sb :: tl) p))
    {st : Status} (hst : sb.status ≠ st)
    (hG : ∀ p, A.domain.includesPos p = true → B.FinishedAt p → G p (some st)) {v : List Sblock} {j : ℕ}
    (hv : (if b.size = 0 ∨ sb.pos + sb.size ≤ b.pos then some (done ++ sb :: tl, done.length + 1)
      else if b = sb.toBlock then
        some (changeSblockStatus (done ++ sb :: tl) done.length st, done.length + 1)
      else if b.pos = sb.pos then
        (changeChunkStatus A.domain (done ++ sb :: tl) b st).map fun sbs => (sbs, done.length)
      else some (splitSblockBy (done ++ sb :: tl) (b.pos + b.size) done.length,
        done.length + 1)) = some (v, j)) :
    ∀ p, G p (statusAt v p) := by
  have hchunk : ∀ p, b.pos ≤ p → p < b.pos + b.size → G p (some st) := fun p h1 h2 => by
    have hsub := hc.narrow (by omega)
    exact hG p (Domain.includesPos_of_includes hin ⟨by omega, by omega⟩) (hc.finished p h1 h2)
  split_ifs at hv with hmiss heq hpos
  · -- no chunk in `sb`: nothing changes
    obtain ⟨rfl, -⟩ := Prod.mk.inj (Option.some.inj hv).symm
    exact hg
  · -- the chunk is `sb`: its bytes take `st`
    obtain ⟨rfl, -⟩ := Prod.mk.inj (Option.some.inj hv).symm
    exact keeps_of_rewrite hg (changeSblockStatus_spec ht st).2.2 fun p h1 h2 =>
      hchunk p (heq ▸ h1) (heq ▸ h2)
  · -- the chunk is a proper prefix of `sb`: its bytes take `st`
    have hsub := hc.narrow (by omega)
    have hlt : b.pos + b.size < sb.pos + sb.size := by
      by_contra h
      exact heq (Block.ext hpos (by omega))
    have hb' : b = ⟨sb.pos, b.pos + b.size - sb.pos⟩ := Block.ext hpos (by dsimp only; omega)
    obtain ⟨r, hr, -, -, hs', -⟩ := changeChunkStatus_prefix ht hin ⟨by omega, hlt⟩ hst
    rw [hb', hr, Option.map_some'] at hv
    obtain ⟨rfl, -⟩ := Prod.mk.inj (Option.some.inj hv).symm
    exact keeps_of_rewrite hg hs' fun p h1 h2 => hchunk p (by omega) h2
  · -- the chunk starts inside `sb`: the split changes no status
    obtain ⟨rfl, -⟩ := Prod.mk.inj (Option.some.inj hv).symm
    exact fun p => statusAt_splitSblockBy ht _ p ▸ hg p

end Step

section Laws

variable {A B : Logbook}

/- On the spec's AND scenario the prefix `B` marks finished stays, and the rest of the
finished sblock joins the bad-sector one after it. -/
example :
    doLogicOps .mAnd ⟨[⟨⟨0, 4096⟩, .finished⟩, ⟨⟨4096, 4096⟩, .badSector⟩], ⟨[⟨0, 8192⟩]⟩⟩
      ⟨[⟨⟨0, 2048⟩, .finished⟩, ⟨⟨2048, 6144⟩, .badSector⟩], ⟨[⟨0, 8192⟩]⟩⟩ =
    some (.ok [⟨⟨0, 2048⟩, .finished⟩, ⟨⟨2048, 6144⟩, .badSector⟩]) := by
  decide

/-- The statuses OR may leave at byte `p`: `A`'s, or finished at a byte of `A`'s domain
that `B` marks finished. -/
def OrChange (A B : Logbook) (p : ℕ) (x : Option Status) : Prop :=
  x = statusAt A.sblocks p ∨ A.domain.includesPos p = true ∧ B.FinishedAt p ∧ x = some .finished

/-- The statuses XOR may leave at byte `p`: `A`'s, or finished or bad-sector at a byte of
`A`'s domain that `B` marks finished. -/
def XorChange (A B : Logbook) (p : ℕ) (x : Option Status) : Prop :=
  x = statusAt A.sblocks p ∨ A.domain.includesPos p = true ∧ B.FinishedAt p ∧
    (x = some .finished ∨ x = some .badSector)

/-- `ddrescuelog --or`: for valid logbooks `A` and `B` with nonempty domains,
`do_logic_ops` ends without panicking and writes a tiling in which every byte has
`A`'s status, except bytes of `A`'s domain that `B` marks finished, which may have
become finished. So OR never changes a finished byte, and OR of a logfile with itself
changes no byte. -/
theorem doLogicOps_or_changes (hA : A.Valid) (hB : B.Valid) (hneA : A.domain.blocks ≠ [])
    (hneB : B.domain.blocks ≠ []) :
    (∃ r, doLogicOps .mOr A B = some (.ok r) ∧ (∃ s, Tiles s r) ∧
      ∀ p, OrChange A B p (statusAt r p)) ∧
    ∃ r, doLogicOps .mOr A A = some (.ok r) ∧ ∀ p, statusAt r p = statusAt A.sblocks p := by
  have hor : ∀ {B : Logbook}, B.Valid → B.domain.blocks ≠ [] →
      ∃ r, doLogicOps .mOr A B = some (.ok r) ∧ (∃ s, Tiles s r) ∧
        ∀ p, OrChange A B p (statusAt r p) := by
    intro B hB hneB
    refine doLogicOps_of_step hA hB hneA hneB .mOr (OrChange A B) (fun p => .inl rfl) ?_
    intro s done sb tl ht hin hg v j hv
    simp only [logicBody] at hv
    by_cases hfin : sb.status = .finished
    · rw [if_pos hfin] at hv
      obtain ⟨rfl, -⟩ := Prod.mk.inj (Option.some.inj hv).symm
      exact hg
    · rw [if_neg hfin] at hv
      have hc := findChunk_spec hB sb.toBlock
      generalize B.findChunk sb.toBlock = b at hc hv
      exact logicTail_keeps ht hin hc hg hfin (fun p hp hfinB => .inr ⟨hp, hfinB, rfl⟩) hv
  refine ⟨hor hB hneB, ?_⟩
  obtain ⟨r, hr, -, hrs⟩ := hor hA hneA
  exact ⟨r, hr, fun p => (hrs p).elim id fun ⟨_, hfin, hp⟩ => hp.trans hfin.2.symm⟩

/-- The OR bound on the logfiles where OR passes a finished run of `B` that starts
inside a non-tried sblock of `A`. -/
theorem doLogicOps_or_changes_inner_run :
    let A : Logbook := ⟨[⟨⟨0, 100⟩, .nonTried⟩], ⟨[⟨0, 100⟩]⟩⟩
    let B : Logbook := ⟨[⟨⟨0, 50⟩, .badSector⟩, ⟨⟨50, 50⟩, .finished⟩], ⟨[⟨0, 100⟩]⟩⟩
    A.Valid ∧ B.Valid ∧ A.domain.blocks ≠ [] ∧ B.domain.blocks ≠ [] ∧
      (∃ r, doLogicOps .mOr A B = some (.ok r) ∧ (∃ s, Tiles s r) ∧
        ∀ p, OrChange A B p (statusAt r p)) ∧
      ∃ r, doLogicOps .mOr A A = some (.ok r) ∧ ∀ p, statusAt r p = statusAt A.sblocks p := by
  intro A B
  have hA : A.Valid := .of_check (by decide)
  have hB : B.Valid := .of_check (by decide)
  exact ⟨hA, hB, by decide, by decide, doLogicOps_or_changes hA hB (by decide) (by decide)⟩

/-- `ddrescuelog --xor`: for valid logbooks `A` and `B` with nonempty domains,
`do_logic_ops` ends without panicking and writes a tiling in which every byte has
`A`'s status, except bytes of `A`'s domain that `B` marks finished, which may have
become finished or bad-sector. XOR changes no byte that `B` does not mark finished. -/
theorem doLogicOps_xor_changes (hA : A.Valid) (hB : B.Valid) (hneA : A.domain.blocks ≠ [])
    (hneB : B.domain.blocks ≠ []) :
    ∃ r, doLogicOps .mXor A B = some (.ok r) ∧ (∃ s, Tiles s r) ∧
      ∀ p, XorChange A B p (statusAt r p) := by
  refine doLogicOps_of_step hA hB hneA hneB .mXor (XorChange A B) (fun p => .inl rfl) ?_
  intro s done sb tl ht hin hg v j hv
  simp only [logicBody] at hv
  have hc := findChunk_spec hB sb.toBlock
  generalize B.findChunk sb.toBlock = b at hc hv
  refine logicTail_keeps ht hin hc hg ?_ (fun p hp hfinB => .inr ⟨hp, hfinB, ?_⟩) hv
  · split_ifs with hfin <;> simp [hfin]
  · split_ifs <;> simp

/-- The XOR bound on the logfiles where XOR flips a prefix twice. -/
theorem doLogicOps_xor_changes_double_flip :
    let A : Logbook := ⟨[⟨⟨0, 10⟩, .nonTried⟩], ⟨[⟨0, 10⟩]⟩⟩
    let B : Logbook := ⟨[⟨⟨0, 5⟩, .finished⟩, ⟨⟨5, 5⟩, .badSector⟩], ⟨[⟨0, 10⟩]⟩⟩
    A.Valid ∧ B.Valid ∧ A.domain.blocks ≠ [] ∧ B.domain.blocks ≠ [] ∧
      ∃ r, doLogicOps .mXor A B = some (.ok r) ∧ (∃ s, Tiles s r) ∧
        ∀ p, XorChange A B p (statusAt r p) := by
  intro A B
  have hA : A.Valid := .of_check (by decide)
  have hB : B.Valid := .of_check (by decide)
  exact ⟨hA, hB, by decide, by decide, doLogicOps_xor_changes hA hB (by decide) (by decide)⟩

end Laws

end Ddrescue
