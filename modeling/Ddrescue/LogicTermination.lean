import Ddrescue.LogicOps

/-!
# `do_logic_ops` ends, in a number of passes set by the two sblock counts

After each `change_chunk_status` the loop of `do_logic_ops` revisits index `i`
(`--i`), so a pass need not move the index on. Each pass still moves the sblock at
the index on (`HeadAdvance`): to one that starts later, or, after `--i`, to one that
starts where it did and is shorter; a merge with the sblock before only moves it
further. Every cut the loop makes is at an edge of a chunk
`find_chunk` returns, so every sblock still to come starts and ends at an edge of an
sblock of `A` or of `B` (`OnEdges`). Counted over those `2 (|A| + |B|)` edges, the
edges after the start of the current sblock and then those up to its end fall at each
pass (`logicRank`). So in every mode the loop leaves the vector within
`(2 (|A| + |B|) + 1) ^ 2 + 1` passes, whatever the data (`doLogicOps_terminates`).
-/

namespace Ddrescue

/-- Counting with a weaker test counts strictly more when a member passes only it. -/
theorem countP_lt_countP {α : Type} {p q : α → Bool} {l : List α} (hpq : ∀ x ∈ l, p x → q x)
    {a : α} (ha : a ∈ l) (hq : q a) (hp : ¬p a) : l.countP p < l.countP q := by
  induction l with
  | nil => cases ha
  | cons x rest ih =>
    have hrest : ∀ y ∈ rest, p y → q y := fun y hy => hpq y (List.mem_cons_of_mem _ hy)
    have hmono := List.countP_mono_left hrest
    rw [List.countP_cons, List.countP_cons]
    rcases List.mem_cons.mp ha with rfl | ha
    · rw [if_pos hq, if_neg hp]
      omega
    · have := ih hrest ha
      by_cases hpx : p x
      · rw [if_pos hpx, if_pos (hpq x (List.mem_cons_self _ _) hpx)]
        omega
      · rw [if_neg hpx]
        split <;> omega

/-- The rank of a loop state whose sblocks still to come are `todo`, over a list `S`
of edges: the edges after the start of the head of `todo`, then those up to its end. -/
def logicRank (S : List ℕ) : List Sblock → ℕ
  | [] => 0
  | sb :: _ => S.countP (fun x => sb.pos < x) * (S.length + 1) +
      S.countP (fun x => x ≤ sb.pos + sb.size) + 1

/-- A head that starts at a later edge, or at the same place and ends before an edge
where the old one ends, has a lower rank. -/
theorem logicRank_lt {S : List ℕ} {sb sb' : Sblock} {tl tl' : List Sblock}
    (h : sb.pos < sb'.pos ∧ sb'.pos ∈ S ∨
      sb'.pos = sb.pos ∧ sb'.pos + sb'.size < sb.pos + sb.size ∧ sb.pos + sb.size ∈ S) :
    logicRank S (sb' :: tl') < logicRank S (sb :: tl) := by
  simp only [logicRank]
  rcases h with ⟨hlt, hmem⟩ | ⟨heq, hlt, hmem⟩
  · have h1 : S.countP (fun x => sb'.pos < x) < S.countP (fun x => sb.pos < x) :=
      countP_lt_countP (fun x _ hx => decide_eq_true (lt_trans hlt (of_decide_eq_true hx))) hmem
        (decide_eq_true hlt) (by simp)
    have h2 : S.countP (fun x => x ≤ sb'.pos + sb'.size) ≤ S.length := List.countP_le_length _
    have h3 : (S.countP (fun x => sb'.pos < x) + 1) * (S.length + 1) ≤
        S.countP (fun x => sb.pos < x) * (S.length + 1) := Nat.mul_le_mul_right _ h1
    rw [Nat.add_mul, Nat.one_mul] at h3
    omega
  · rw [heq] at hlt ⊢
    have : S.countP (fun x => x ≤ sb.pos + sb'.size) < S.countP (fun x => x ≤ sb.pos + sb.size) :=
      countP_lt_countP (fun x _ hx => decide_eq_true (le_trans (of_decide_eq_true hx) hlt.le))
        hmem (decide_eq_true le_rfl) (by simpa using hlt)
    omega

theorem logicRank_le (S : List ℕ) (l : List Sblock) : logicRank S l ≤ (S.length + 1) ^ 2 := by
  cases l with
  | nil => exact Nat.zero_le _
  | cons sb rest =>
    have h1 : S.countP (fun x => sb.pos < x) * (S.length + 1) ≤ S.length * (S.length + 1) :=
      Nat.mul_le_mul_right _ (List.countP_le_length _)
    have h2 : S.countP (fun x => x ≤ sb.pos + sb.size) ≤ S.length := List.countP_le_length _
    simp only [logicRank]
    rw [Nat.pow_two, Nat.add_mul, Nat.one_mul]
    omega

/-- Moving the head on to a state of the invariant lowers the rank over the edges. -/
theorem OnEdges.rank_lt {S : List ℕ} {s E : ℕ} {done done' tl todo' : List Sblock}
    {sb : Sblock} (hb : OnEdges S s E done (sb :: tl)) (hb' : OnEdges S s E done' todo')
    (h : HeadAdvance (sb :: tl) todo') : logicRank S todo' < logicRank S (sb :: tl) := by
  cases todo' with
  | nil => simp [logicRank]
  | cons sb' tl' =>
    refine logicRank_lt ?_
    rcases h with h | ⟨h1, h2⟩
    · exact .inl ⟨h, (hb'.edges sb' (by simp)).1⟩
    · exact .inr ⟨h1, by omega, (hb.edges sb (by simp)).2⟩

section Pass

variable {S : List ℕ} {s E : ℕ} {done tl : List Sblock} {sb : Sblock} {d : Domain}
  {B : Logbook}

/-- The chunk `find_chunk` narrows an sblock to starts, and if nonempty ends, at an
edge, when the edges of the sblock and of `B`'s sblocks are edges. -/
theorem findChunk_edges_mem (hBS : ∀ x ∈ B.sblocks, x.pos ∈ S ∧ x.pos + x.size ∈ S)
    (hsb : sb.pos ∈ S ∧ sb.pos + sb.size ∈ S) :
    (B.findChunk sb.toBlock).pos ∈ S ∧
      (0 < (B.findChunk sb.toBlock).size →
        (B.findChunk sb.toBlock).pos + (B.findChunk sb.toBlock).size ∈ S) := by
  obtain ⟨h1, h2⟩ := findChunk_edges B sb.toBlock
  refine ⟨?_, fun hsz => ?_⟩
  · rcases h1 with h | ⟨x, hx, h⟩ <;> rw [h]
    exacts [hsb.1, (hBS x hx).1]
  · rcases h2 hsz with h | ⟨x, hx, h⟩ <;> rw [h]
    exacts [hsb.2, (hBS x hx).2]

variable (hB : B.Valid) (hBS : ∀ x ∈ B.sblocks, x.pos ∈ S ∧ x.pos + x.size ∈ S)
include hB hBS

/-- Each pass of the AND body keeps the invariant and moves the head on. -/
theorem OnEdges.advances_and (hb : OnEdges S s E done (sb :: tl))
    (hin : d.includes sb.toBlock = true) :
    Advances S s E (sb :: tl) (logicBody .mAnd d B (done ++ sb :: tl) done.length sb) := by
  have hc := findChunk_spec hB sb.toBlock
  have he := findChunk_edges_mem hBS (hb.edges sb (by simp))
  simp only [logicBody]
  generalize B.findChunk sb.toBlock = b at hc he
  split_ifs with hfin hmiss heq hpos
  · exact hb.advances_next
  · exact hb.advances_changeSblockStatus .badSector
  · exact hb.advances_next
  · -- `B`'s chunk is a proper prefix of `sb`: split it off and pass it
    exact hb.advances_splitSblockBy ⟨by omega, (hc.narrow (by omega)).2⟩ (he.2 (by omega))
  · -- `B`'s chunk starts inside `sb`: the bytes before it turn bad, then `--i`
    have hsub := hc.narrow (by omega)
    exact hb.advances_changeChunkPrefix hin ⟨by omega, by omega⟩ he.1
      (by rw [not_not.mp hfin]; decide)

/-- The branches the OR and XOR bodies share, toward a status `st` other than that of
`sb`: each keeps the invariant and moves the head on. -/
theorem OnEdges.advances_orTail (hb : OnEdges S s E done (sb :: tl))
    (hin : d.includes sb.toBlock = true) {st : Status} (hst : sb.status ≠ st) :
    Advances S s E (sb :: tl)
      (if (B.findChunk sb.toBlock).size = 0 ∨ sb.pos + sb.size ≤ (B.findChunk sb.toBlock).pos then
        some (done ++ sb :: tl, done.length + 1)
      else if B.findChunk sb.toBlock = sb.toBlock then
        some (changeSblockStatus (done ++ sb :: tl) done.length st, done.length + 1)
      else if (B.findChunk sb.toBlock).pos = sb.pos then
        (changeChunkStatus d (done ++ sb :: tl) (B.findChunk sb.toBlock) st).map
          fun sbs => (sbs, done.length)
      else some (splitSblockBy (done ++ sb :: tl)
        ((B.findChunk sb.toBlock).pos + (B.findChunk sb.toBlock).size) done.length,
        done.length + 1)) := by
  have hc := findChunk_spec hB sb.toBlock
  have he := findChunk_edges_mem hBS (hb.edges sb (by simp))
  generalize B.findChunk sb.toBlock = b at hc he
  split_ifs with hmiss heq hpos
  · exact hb.advances_next
  · exact hb.advances_changeSblockStatus st
  · -- `B`'s chunk is a proper prefix of `sb`: it is rewritten, then `--i`
    have hsub := hc.narrow (by omega)
    have hlt : b.pos + b.size < sb.pos + sb.size := by
      by_contra h
      exact heq (Block.ext hpos (by omega))
    have hb' : b = ⟨sb.pos, b.pos + b.size - sb.pos⟩ := Block.ext hpos (by dsimp only; omega)
    rw [hb']
    exact hb.advances_changeChunkPrefix hin ⟨by omega, hlt⟩ (he.2 (by omega)) hst
  · -- `B`'s chunk starts inside `sb`: split at its end and move on
    have hsub := hc.narrow (by omega)
    exact hb.advances_splitSblockBy ⟨by omega, hsub.2⟩ (he.2 (by omega))

/-- Each pass of the body of `do_logic_ops`, in every mode, keeps the invariant and
moves the head on. -/
theorem OnEdges.advances_logicBody (mode : LogicMode) (hb : OnEdges S s E done (sb :: tl))
    (hin : d.includes sb.toBlock = true) :
    Advances S s E (sb :: tl) (logicBody mode d B (done ++ sb :: tl) done.length sb) := by
  cases mode with
  | mAnd => exact hb.advances_and hB hBS hin
  | mOr =>
    by_cases hfin : sb.status = .finished
    · simp only [logicBody, if_pos hfin]
      exact hb.advances_next
    · simp only [logicBody, if_neg hfin]
      exact hb.advances_orTail hB hBS hin hfin
  | mXor =>
    simp only [logicBody]
    refine hb.advances_orTail hB hBS hin ?_
    split_ifs with hfin
    · rw [hfin]
      decide
    · exact hfin

end Pass

/-- The passes the loop of `do_logic_ops` may make on logbooks of `nA` and `nB`
sblocks: `(2 (nA + nB) + 1) ^ 2`, and one more that leaves the vector. -/
def logicFuel (nA nB : ℕ) : ℕ := (2 * (nA + nB) + 1) ^ 2 + 1

/-- For valid logbooks `A` and `B`, in every mode, the loop of `do_logic_ops` ends
without panicking within `logicFuel |A| |B|` passes, and more fuel gives the same
vector; `do_logic_ops` exits on an empty domain and otherwise writes that vector,
compacted. -/
theorem doLogicOps_terminates {A B : Logbook} (hA : A.Valid) (hB : B.Valid) (mode : LogicMode) :
    ∃ r, (∀ fuel, logicFuel A.sblocks.length B.sblocks.length ≤ fuel →
        forSblocks A.domain (logicBody mode A.domain B) fuel A.sblocks 0 = some r) ∧
      doLogicOps mode A B = some (if A.domain.size = 0 ∨ B.domain.size = 0 then .emptyDomain
        else .ok (compactSblockVector r)) := by
  obtain ⟨s, hs⟩ := hA.tiles
  let S := boundaries A.sblocks ++ boundaries B.sblocks
  have hS : S.length = 2 * (A.sblocks.length + B.sblocks.length) := by
    simp only [S, List.length_append, length_boundaries]
    omega
  have hBS : ∀ x ∈ B.sblocks, x.pos ∈ S ∧ x.pos + x.size ∈ S := fun x hx =>
    (edges_mem_boundaries hx).imp (List.mem_append_right _) (List.mem_append_right _)
  have h0 : OnEdges S s (tileEnd s A.sblocks) [] A.sblocks := ⟨hs, rfl, fun x hx =>
    (edges_mem_boundaries hx).imp (List.mem_append_left _) (List.mem_append_left _)⟩
  have hadv := fun done sb tl (hb : OnEdges S s (tileEnd s A.sblocks) done (sb :: tl))
    (hin : A.domain.includes sb.toBlock = true) => hb.advances_logicBody hB hBS mode hin
  -- the run on the fuel set by the sblock counts
  obtain ⟨r, hr, -⟩ := OnEdges.run hadv (logicRank S) (fun hb hb' h => hb.rank_lt hb' h)
    (fun _ _ => True) (fun _ _ _ _ _ _ _ _ _ _ => trivial) h0 (fun _ => trivial)
    (show logicRank S A.sblocks < logicFuel A.sblocks.length B.sblocks.length by
      have := logicRank_le S A.sblocks
      rw [hS] at this
      exact Nat.lt_succ_of_le this)
  -- the run on the fuel of `do_logic_ops`, set by the size of the vector
  obtain ⟨r', hr', -⟩ := OnEdges.run hadv (headMeasure (tileEnd s A.sblocks))
    (fun _ hb' h => hb'.headMeasure_lt h) (fun _ _ => True) (fun _ _ _ _ _ _ _ _ _ _ => trivial)
    h0 (fun _ => trivial) (show _ < loopFuel A.sblocks from Nat.lt_succ_of_le (headMeasure_le hs))
  simp only [List.nil_append, List.length_nil] at hr hr'
  have hsame : some r' = some r :=
    (forSblocks_fuel_mono hr' (le_max_left _ (logicFuel A.sblocks.length B.sblocks.length))).symm.trans
      (forSblocks_fuel_mono hr (le_max_right _ _))
  refine ⟨r, fun fuel hfuel => forSblocks_fuel_mono hr hfuel, ?_⟩
  rw [doLogicOps]
  split_ifs
  · rfl
  · rw [hr', Option.map_some', Option.some.inj hsame]

theorem doLogicOps_terminates_double_flip :
    let A : Logbook := ⟨[⟨⟨0, 10⟩, .nonTried⟩], ⟨[⟨0, 10⟩]⟩⟩
    let B : Logbook := ⟨[⟨⟨0, 5⟩, .finished⟩, ⟨⟨5, 5⟩, .badSector⟩], ⟨[⟨0, 10⟩]⟩⟩
    A.Valid ∧ B.Valid ∧ ∃ r, (∀ fuel, logicFuel A.sblocks.length B.sblocks.length ≤ fuel →
        forSblocks A.domain (logicBody .mXor A.domain B) fuel A.sblocks 0 = some r) ∧
      doLogicOps .mXor A B = some (if A.domain.size = 0 ∨ B.domain.size = 0 then .emptyDomain
        else .ok (compactSblockVector r)) := by
  intro A B
  have hA : A.Valid := .of_check (by decide)
  have hB : B.Valid := .of_check (by decide)
  exact ⟨hA, hB, doLogicOps_terminates hA hB .mXor⟩

end Ddrescue
