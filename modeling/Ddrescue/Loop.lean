import Mathlib.Algebra.Group.Nat.Basic
import Ddrescue.Mutators

/-!
# The loops of ddrescuelog over the sblock vector

`do_logic_ops` and `change_types` walk the vector with
`for( int i = 0; i < logbook.sblocks(); ++i )`, skip the sblocks in gaps of the
domain, stop at the first one past it, and change the vector as they go;
`do_logic_ops` revisits an sblock with `--i` after a change that shrinks it.
`forSblocks` is that loop, run on fuel.

A pass splits the vector anew at the index of the next pass, which may lie past
its end: `change_sblock_status` merges the current sblock with the one before when
they share a status, so the vector shrinks under the index, and the loop then
skips the sblock that moved onto index `i + 1`, or leaves. A run is proved once,
here (`forSblocks_of_invariant`). `OnEdges` is the invariant every loop keeps: the
vector tiles the interval it tiled, and each sblock still to come starts and ends
at an edge from a fixed list. Each mutator keeps it and moves the sblock at the
index on (`Advances`), so a run ends on fuel above any measure that moving on
lowers, with every property of the bytes' statuses that each pass keeps
(`OnEdges.run`, `forSblocks_of_advances`).
-/

namespace Ddrescue

/-- The loop `for( int i = 0; i < logbook.sblocks(); ++i )` of ddrescuelog,
with its opening test: an sblock the domain does not include ends the loop when
it lies past the domain (`break`) and is skipped otherwise (`continue`). On an
sblock of the domain, `body` returns the vector and the index of the next pass
(`i + 1`, or `i` after `--i`), or `none` when the Logbook panics. `fuel` bounds
the number of passes. -/
def forSblocks (d : Domain) (body : List Sblock → ℕ → Sblock → Option (List Sblock × ℕ)) :
    ℕ → List Sblock → ℕ → Option (List Sblock)
  | 0, _, _ => none
  | fuel + 1, sbs, i =>
    match sbs[i]? with
    | none => some sbs
    | some sb =>
      if d.includes sb.toBlock then
        match body sbs i sb with
        | some (sbs', j) => forSblocks d body fuel sbs' j
        | none => none
      else if d.lt sb.toBlock then some sbs
      else forSblocks d body fuel sbs (i + 1)

section Invariant

variable {d : Domain} {body : List Sblock → ℕ → Sblock → Option (List Sblock × ℕ)}

/-- More fuel does not change a result the loop reaches. -/
theorem forSblocks_fuel_mono {fuel fuel' : ℕ} {sbs r : List Sblock} {i : ℕ}
    (h : forSblocks d body fuel sbs i = some r) (hle : fuel ≤ fuel') :
    forSblocks d body fuel' sbs i = some r := by
  induction fuel generalizing fuel' sbs i with
  | zero => cases h
  | succ fuel ih =>
    obtain ⟨f, rfl⟩ : ∃ f, fuel' = f + 1 := ⟨fuel' - 1, by omega⟩
    rcases hget : sbs[i]? with _ | sb <;> simp only [forSblocks, hget] at h ⊢
    · exact h
    · split_ifs at h ⊢
      · rcases hb : body sbs i sb with _ | ⟨sbs', j⟩ <;> simp only [hb] at h ⊢
        · cases h
        · exact ih h (by omega)
      · exact h
      · exact ih h (by omega)

/-- On an index past the end of the vector the loop leaves it as it is. -/
theorem forSblocks_of_length_le {fuel : ℕ} {sbs : List Sblock} {i : ℕ} (h : sbs.length ≤ i) :
    forSblocks d body (fuel + 1) sbs i = some sbs := by
  simp [forSblocks, List.getElem?_eq_none h]

/-- The loop run from a vector `done ++ todo` split at the index. When every pass on
an sblock of the domain keeps an invariant `P` of a new split and lowers a `rank` of
the sblocks to come, as skipping an sblock does, and both ways out of the loop (past
the last sblock, or `break` past the domain) leave a vector that meets `Q`, the loop
ends, on fuel above the rank, with a vector that meets `Q`. The index a pass returns
is that of the first sblock to come, or lies past the end of the vector when none is
left. -/
theorem forSblocks_of_invariant (P : List Sblock → List Sblock → Prop) (rank : List Sblock → ℕ)
    (Q : List Sblock → Prop)
    (hbody : ∀ done sb tl, P done (sb :: tl) → d.includes sb.toBlock = true →
      ∃ done' todo' k, body (done ++ sb :: tl) done.length sb = some (done' ++ todo', done'.length + k) ∧
        (k = 0 ∨ todo' = []) ∧ P done' todo' ∧ rank todo' < rank (sb :: tl))
    (hskip : ∀ done sb tl, P done (sb :: tl) → d.includes sb.toBlock = false →
      d.lt sb.toBlock = false → P (done ++ [sb]) tl ∧ rank tl < rank (sb :: tl))
    (hend : ∀ done, P done [] → Q done)
    (hbreak : ∀ done sb tl, P done (sb :: tl) → d.includes sb.toBlock = false →
      d.lt sb.toBlock = true → Q (done ++ sb :: tl))
    {fuel : ℕ} {done todo : List Sblock} (hP : P done todo) (hfuel : rank todo < fuel) :
    ∃ r, forSblocks d body fuel (done ++ todo) done.length = some r ∧ Q r := by
  induction fuel generalizing done todo with
  | zero => omega
  | succ fuel ih =>
    have hget : (done ++ todo)[done.length]? = todo.head? := by
      rw [List.getElem?_append_right le_rfl, Nat.sub_self]
      cases todo <;> simp
    cases todo with
    | nil =>
      exact ⟨done ++ [], by simp only [forSblocks, hget, List.head?_nil],
        by simpa using hend done hP⟩
    | cons sb tl =>
      simp only [forSblocks, hget, List.head?_cons]
      split
      · obtain ⟨done', todo', k, hr, hk, hP', hlt⟩ := hbody done sb tl hP ‹_›
        rw [hr]
        obtain ⟨r, hr', hQ⟩ := ih hP' (by omega)
        rcases hk with rfl | rfl
        · exact ⟨r, hr', hQ⟩
        · -- past the end of the vector the loop leaves it, at any index
          obtain ⟨f, rfl⟩ : ∃ f, fuel = f + 1 := ⟨fuel - 1, by omega⟩
          rw [forSblocks_of_length_le (by simp)] at hr'
          refine ⟨r, ?_, hQ⟩
          show forSblocks d body (f + 1) (done' ++ []) (done'.length + k) = some r
          rw [forSblocks_of_length_le (by simp), hr']
      · have hout := Bool.eq_false_iff.mpr ‹_›
        split
        · exact ⟨_, rfl, hbreak done sb tl hP hout ‹_›⟩
        · obtain ⟨hP', hlt⟩ := hskip done sb tl hP hout (Bool.eq_false_iff.mpr ‹_›)
          obtain ⟨r, hr, hQ⟩ := ih hP' (by omega)
          exact ⟨r, by simpa using hr, hQ⟩

end Invariant

/-- The measure of a loop state whose sblocks still to come are `todo`, in a
vector ending at `E`: a pass either moves the head of `todo` to a later
position or, after `--i`, shrinks it in place. -/
def headMeasure (E : ℕ) : List Sblock → ℕ
  | [] => 0
  | sb :: _ => (E - sb.pos) * (E + 1) + sb.size + 1

theorem headMeasure_lt {E : ℕ} {sb sb' : Sblock} {tl tl' : List Sblock}
    (hE : sb'.pos + sb'.size ≤ E)
    (h : sb.pos < sb'.pos ∨ sb'.pos = sb.pos ∧ sb'.size < sb.size) :
    headMeasure E (sb' :: tl') < headMeasure E (sb :: tl) := by
  simp only [headMeasure]
  rcases h with h | ⟨h1, h2⟩
  · have : (E - sb'.pos + 1) * (E + 1) ≤ (E - sb.pos) * (E + 1) :=
      Nat.mul_le_mul_right _ (by omega)
    rw [Nat.add_mul, Nat.one_mul] at this
    omega
  · rw [h1]
    omega

/-- A tiling from `s` to `E` has measure at most `(E + 1) ^ 2`. -/
theorem headMeasure_le {s : ℕ} {l : List Sblock} (h : Tiles s l) :
    headMeasure (tileEnd s l) l ≤ (tileEnd 0 l + 1) ^ 2 := by
  cases l with
  | nil => exact Nat.zero_le _
  | cons sb rest =>
    have hle := le_tileEnd h.2.2
    simp only [headMeasure, tileEnd_cons] at hle ⊢
    have : (tileEnd (sb.pos + sb.size) rest - sb.pos) * (tileEnd (sb.pos + sb.size) rest + 1) ≤
        tileEnd (sb.pos + sb.size) rest * (tileEnd (sb.pos + sb.size) rest + 1) :=
      Nat.mul_le_mul_right _ (Nat.sub_le _ _)
    rw [Nat.pow_two, Nat.add_mul, Nat.one_mul]
    omega

/-- The fuel the loops of ddrescuelog run on: `(E + 1) ^ 2 + 1` for a vector
ending at `E`, above the measure of any of its states. -/
def loopFuel (sbs : List Sblock) : ℕ := (tileEnd 0 sbs + 1) ^ 2 + 1

/-- Every member of a tiling ends at or before the tiling does. -/
theorem end_le_tileEnd {s : ℕ} {l : List Sblock} (h : Tiles s l) {sb : Sblock} (hsb : sb ∈ l) :
    sb.pos + sb.size ≤ tileEnd s l := by
  obtain ⟨l₁, l₂, rfl⟩ := List.append_of_mem hsb
  rw [tileEnd_append, tileEnd_cons]
  exact le_tileEnd (Tiles_append.mp h).2.2.2

/-- The positions where the sblocks of `l` start and end. -/
def boundaries : List Sblock → List ℕ
  | [] => []
  | sb :: rest => sb.pos :: (sb.pos + sb.size) :: boundaries rest

theorem length_boundaries (l : List Sblock) : (boundaries l).length = 2 * l.length := by
  induction l with
  | nil => rfl
  | cons sb rest ih => simp only [boundaries, List.length_cons, ih]; omega

theorem edges_mem_boundaries {l : List Sblock} {sb : Sblock} (h : sb ∈ l) :
    sb.pos ∈ boundaries l ∧ sb.pos + sb.size ∈ boundaries l := by
  induction l with
  | nil => cases h
  | cons x rest ih =>
    rcases List.mem_cons.mp h with rfl | h
    · simp [boundaries]
    · simp [boundaries, ih h]

/-- How a pass moves the head of the sblocks to come: the new head starts after the
old one, or starts where it does and is shorter; or no sblock is left to come. -/
def HeadAdvance : List Sblock → List Sblock → Prop
  | sb :: _, sb' :: _ => sb.pos < sb'.pos ∨ sb'.pos = sb.pos ∧ sb'.size < sb.size
  | _ :: _, [] => True
  | [], _ => False

/-- What holds between two passes of a loop over the vector, over a list `S` of
edges: the vector is `done ++ todo`, split at the index, and tiles `[s, E)`, and every
sblock still to come starts and ends at an edge. -/
structure OnEdges (S : List ℕ) (s E : ℕ) (done todo : List Sblock) : Prop where
  /-- The vector tiles an interval from `s`. -/
  tiles : Tiles s (done ++ todo)
  /-- That interval ends at `E`. -/
  tileEnd_eq : tileEnd s (done ++ todo) = E
  /-- The sblocks to come start and end at edges. -/
  edges : ∀ x ∈ todo, x.pos ∈ S ∧ x.pos + x.size ∈ S

/-- A pass that keeps the invariant and moves the head on: it returns the vector
split anew, with the index of the next pass at the first sblock to come, or past the
end of the vector when none is left. -/
def Advances (S : List ℕ) (s E : ℕ) (todo : List Sblock) (r : Option (List Sblock × ℕ)) :
    Prop :=
  ∃ done' todo' k, r = some (done' ++ todo', done'.length + k) ∧ (k = 0 ∨ todo' = []) ∧
    OnEdges S s E done' todo' ∧ HeadAdvance todo todo'

section OnEdges

variable {S : List ℕ} {s E : ℕ} {done done' tl todo' : List Sblock} {sb : Sblock}

/-- Moving the head on lowers the measure of the loop. -/
theorem OnEdges.headMeasure_lt (hb' : OnEdges S s E done' todo') (h : HeadAdvance (sb :: tl) todo') :
    headMeasure E todo' < headMeasure E (sb :: tl) := by
  cases todo' with
  | nil => simp [headMeasure]
  | cons sb' tl' => exact headMeasure_lt (hb'.tileEnd_eq ▸ end_le_tileEnd hb'.tiles (by simp)) h

/-- A new vector that tiles the same interval, split where the sblocks to come are a
suffix of those after the current one, keeps the invariant, and the head has moved
on. -/
theorem OnEdges.of_suffix (hb : OnEdges S s E done (sb :: tl)) (ht : Tiles s (done' ++ todo'))
    (hE : tileEnd s (done' ++ todo') = tileEnd s (done ++ sb :: tl)) (hsuf : todo' <:+ tl) :
    OnEdges S s E done' todo' ∧ HeadAdvance (sb :: tl) todo' := by
  refine ⟨⟨ht, hE.trans hb.tileEnd_eq,
    fun x hx => hb.edges x (List.mem_cons_of_mem _ (hsuf.subset hx))⟩, ?_⟩
  cases todo' with
  | nil => trivial
  | cons x rest =>
    obtain ⟨-, hsize, htl⟩ := (Tiles_append.mp hb.tiles).2
    have := le_pos_of_mem_tiles htl (hsuf.subset (List.mem_cons_self x rest))
    exact .inl (by omega)

/-- Passing the current sblock keeps the invariant and moves the head on. -/
theorem OnEdges.advance (hb : OnEdges S s E done (sb :: tl)) :
    OnEdges S s E (done ++ [sb]) tl ∧ HeadAdvance (sb :: tl) tl :=
  hb.of_suffix (by simpa using hb.tiles) (by simp) (List.suffix_refl tl)

theorem OnEdges.advances_next (hb : OnEdges S s E done (sb :: tl)) :
    Advances S s E (sb :: tl) (some (done ++ sb :: tl, done.length + 1)) :=
  ⟨done ++ [sb], tl, 0, by simp, .inl rfl, hb.advance⟩

/-- After `change_sblock_status( i, st )` the `++i` of the loop splits the vector into
the sblocks passed and a suffix of those after sblock `i` that it did not absorb. After
a merge with the sblock before, index `i + 1` skips the first of them, or lies past the
end of the vector. -/
theorem changeSblockStatus_split (done tl : List Sblock) (sb : Sblock) (st : Status) :
    ∃ done' todo' k, changeSblockStatus (done ++ sb :: tl) done.length st = done' ++ todo' ∧
      done.length + 1 = done'.length + k ∧ (k = 0 ∨ todo' = []) ∧ todo' <:+ tl := by
  rw [changeSblockStatus_eq]
  -- the join with the sblock after leaves `m :: rest`, with `rest` a suffix of `tl`
  obtain ⟨m, rest, hm, hrest⟩ : ∃ m rest, joinAt [{ sb with status := st }] tl = m :: rest ∧
      rest <:+ tl := by
    rcases joinAt_cases [{ sb with status := st }] tl with h | ⟨pre0, a, c, rest, hpre, rfl, -, h⟩
    · exact ⟨_, tl, h, List.suffix_refl tl⟩
    · obtain ⟨rfl, -⟩ := List.append_eq_cons_iff.mp hpre.symm |>.resolve_right (by simp)
      exact ⟨a.join c, rest, h, List.suffix_cons c rest⟩
  rw [hm]
  rcases joinAt_cases done (m :: rest) with h | ⟨d0, a, c, rest', rfl, hc, -, h⟩ <;> rw [h]
  · exact ⟨done ++ [m], rest, 0, by simp, by simp, .inl rfl, hrest⟩
  · -- joined with the sblock before: index `i + 1` lies one sblock further on
    cases hc
    cases rest with
    | nil => exact ⟨d0 ++ [a.join m], [], 1, by simp, by simp, .inr rfl, List.nil_suffix⟩
    | cons x rest'' =>
      exact ⟨d0 ++ [a.join m, x], rest'', 0, by simp, by simp, .inl rfl,
        (List.suffix_cons x rest'').trans hrest⟩

/-- A new split of a vector that tiles the same interval, whose sblocks to come are a
suffix of those after the current sblock, passes at least the whole current sblock. -/
theorem end_le_tileEnd_of_suffix {s : ℕ} {done tl done' todo' : List Sblock} {sb : Sblock}
    (h : Tiles s (done ++ sb :: tl)) (ht : Tiles s (done' ++ todo'))
    (hE : tileEnd s (done' ++ todo') = tileEnd s (done ++ sb :: tl)) (hsuf : todo' <:+ tl) :
    sb.pos + sb.size ≤ tileEnd s done' := by
  cases todo' with
  | nil => simpa [← hE] using end_le_tileEnd h (by simp)
  | cons x rest =>
    rw [← (Tiles_append.mp ht).2.1]
    exact le_pos_of_mem_tiles (Tiles_append.mp h).2.2.2 (hsuf.subset (List.mem_cons_self x rest))

/-- `change_sblock_status( i, st )` keeps the edges and moves the head on, whichever
neighbours the sblock merges with. -/
theorem OnEdges.advances_changeSblockStatus (hb : OnEdges S s E done (sb :: tl)) (st : Status) :
    Advances S s E (sb :: tl)
      (some (changeSblockStatus (done ++ sb :: tl) done.length st, done.length + 1)) := by
  obtain ⟨ht, hE, -⟩ := changeSblockStatus_spec hb.tiles st
  obtain ⟨done', todo', k, hv, hk, hk0, hsuf⟩ := changeSblockStatus_split done tl sb st
  rw [hv] at ht hE
  exact ⟨done', todo', k, by rw [hv, hk], hk0, hb.of_suffix ht hE hsuf⟩

/-- `split_sblock_by( q, i )` at an edge `q` after the start of the current sblock and
not after its end keeps the invariant and moves the head on. -/
theorem OnEdges.advances_splitSblockBy (hb : OnEdges S s E done (sb :: tl)) {q : ℕ}
    (hq : sb.pos < q ∧ q ≤ sb.pos + sb.size) (hqS : q ∈ S) :
    Advances S s E (sb :: tl)
      (some (splitSblockBy (done ++ sb :: tl) q done.length, done.length + 1)) := by
  rcases Nat.lt_or_eq_of_le hq.2 with hlt | heq
  · obtain ⟨hr, ht, hE, -⟩ := splitSblockBy_inside hb.tiles ⟨hq.1, hlt⟩
    have hsb := hb.edges sb (by simp)
    rw [hr]
    refine ⟨_, _, 0, ?_, .inl rfl, ⟨ht, hE.trans hb.tileEnd_eq, fun x hx => ?_⟩, Or.inl hq.1⟩
    · simp
    · rcases List.mem_cons.mp hx with rfl | hx
      · exact ⟨hqS, by dsimp only; rw [Nat.add_sub_cancel' hq.2]; exact hsb.2⟩
      · exact hb.edges x (List.mem_cons_of_mem _ hx)
  · have hsplit : splitSblockBy (done ++ sb :: tl) q done.length = done ++ sb :: tl := by
      simp [splitSblockBy, replaceAt_append, Sblock.splitAt, heq]
    rw [hsplit]
    exact hb.advances_next

/-- `change_chunk_status` of the part of the current sblock before an edge `q` strictly
inside it, toward a status that is not the sblock's, followed by `--i`, keeps the
invariant and moves the head on: either the part stays an sblock of its own, shorter
than the current one, or it joins the sblock before and the head moves to the rest. -/
theorem OnEdges.advances_changeChunkPrefix (hb : OnEdges S s E done (sb :: tl)) {d : Domain}
    (hin : d.includes sb.toBlock = true) {q : ℕ} (hq : sb.pos < q ∧ q < sb.pos + sb.size)
    (hqS : q ∈ S) {st : Status} (hst : sb.status ≠ st) :
    Advances S s E (sb :: tl)
      ((changeChunkStatus d (done ++ sb :: tl) ⟨sb.pos, q - sb.pos⟩ st).map
        fun sbs => (sbs, done.length)) := by
  obtain ⟨r, hr, ht, hE, -, hshape⟩ := changeChunkStatus_prefix hb.tiles hin hq hst
  rw [hr, Option.map_some']
  have hsb := hb.edges sb (by simp)
  have hrest : ∀ x ∈ (⟨⟨q, sb.pos + sb.size - q⟩, sb.status⟩ : Sblock) :: tl,
      x.pos ∈ S ∧ x.pos + x.size ∈ S := by
    intro x hx
    rcases List.mem_cons.mp hx with rfl | hx
    · exact ⟨hqS, by dsimp only; rw [Nat.add_sub_cancel' (by omega)]; exact hsb.2⟩
    · exact hb.edges x (List.mem_cons_of_mem _ hx)
  rcases hshape with rfl | ⟨pre0, l, rfl, rfl⟩
  · -- the chunk stays an sblock of its own: the head keeps its start and shrinks
    refine ⟨done, _, 0, rfl, .inl rfl, ⟨ht, hE.trans hb.tileEnd_eq, fun x hx => ?_⟩,
      Or.inr ⟨rfl, by dsimp only; omega⟩⟩
    rcases List.mem_cons.mp hx with rfl | hx
    · exact ⟨hsb.1, by dsimp only; rwa [Nat.add_sub_cancel' hq.1.le]⟩
    · exact hrest x hx
  · -- the chunk joins the sblock before: the head moves on to the rest of `sb`
    exact ⟨pre0 ++ [l.join ⟨⟨sb.pos, q - sb.pos⟩, st⟩], _, 0, by simp, .inl rfl,
      ⟨ht, hE.trans hb.tileEnd_eq, hrest⟩, Or.inl (by dsimp only; omega)⟩

end OnEdges

section Run

variable {S : List ℕ} {s E : ℕ} {d : Domain}
  {body : List Sblock → ℕ → Sblock → Option (List Sblock × ℕ)}

/-- A run of a loop whose every pass on an sblock of the domain keeps the edges and
moves the head on ends without panicking, from any state of the invariant and on fuel
above any rank that moving the head on lowers. The vector it ends with tiles the same
interval, and every property `G` of each byte's status that every pass keeps holds of
it. -/
theorem OnEdges.run
    (hadv : ∀ done sb tl, OnEdges S s E done (sb :: tl) → d.includes sb.toBlock = true →
      Advances S s E (sb :: tl) (body (done ++ sb :: tl) done.length sb))
    (rank : List Sblock → ℕ)
    (hrank : ∀ {done sb tl done' todo'}, OnEdges S s E done (sb :: tl) →
      OnEdges S s E done' todo' → HeadAdvance (sb :: tl) todo' → rank todo' < rank (sb :: tl))
    (G : ℕ → Option Status → Prop)
    (hstep : ∀ done sb tl, OnEdges S s E done (sb :: tl) → d.includes sb.toBlock = true →
      (∀ p, G p (statusAt (done ++ sb :: tl) p)) → ∀ v j,
        body (done ++ sb :: tl) done.length sb = some (v, j) → ∀ p, G p (statusAt v p))
    {fuel : ℕ} {done todo : List Sblock} (hb : OnEdges S s E done todo)
    (hg : ∀ p, G p (statusAt (done ++ todo) p)) (hfuel : rank todo < fuel) :
    ∃ r, forSblocks d body fuel (done ++ todo) done.length = some r ∧ Tiles s r ∧
      ∀ p, G p (statusAt r p) :=
  forSblocks_of_invariant
    (fun done todo => OnEdges S s E done todo ∧ ∀ p, G p (statusAt (done ++ todo) p)) rank
    (fun r => Tiles s r ∧ ∀ p, G p (statusAt r p))
    (fun done sb tl ⟨hb, hg⟩ hin => by
      obtain ⟨done', todo', k, hv, hk, hb', hadv'⟩ := hadv done sb tl hb hin
      exact ⟨done', todo', k, hv, hk, ⟨hb', hstep done sb tl hb hin hg _ _ hv⟩, hrank hb hb' hadv'⟩)
    (fun done sb tl ⟨hb, hg⟩ _ _ =>
      ⟨⟨hb.advance.1, by simpa using hg⟩, hrank hb hb.advance.1 hb.advance.2⟩)
    (fun done ⟨hb, hg⟩ => ⟨by simpa using hb.tiles, by simpa using hg⟩)
    (fun done sb tl ⟨hb, hg⟩ _ _ => ⟨hb.tiles, hg⟩) ⟨hb, hg⟩ hfuel

/-- A whole run over a valid logbook, on the fuel of ddrescuelog's loops: when every
pass on an sblock of the domain keeps the vector on the edges `S` of the logbook's
sblocks and moves the head on, and keeps a property `G` of every byte's status that
the logbook has, the loop ends without panicking with a tiling all of whose bytes
have `G`. -/
theorem forSblocks_of_advances {A : Logbook} (hA : A.Valid)
    (hS : ∀ x ∈ A.sblocks, x.pos ∈ S ∧ x.pos + x.size ∈ S)
    (hadv : ∀ s done sb tl, OnEdges S s (tileEnd s A.sblocks) done (sb :: tl) →
      A.domain.includes sb.toBlock = true →
      Advances S s (tileEnd s A.sblocks) (sb :: tl) (body (done ++ sb :: tl) done.length sb))
    (G : ℕ → Option Status → Prop) (h0 : ∀ p, G p (statusAt A.sblocks p))
    (hstep : ∀ s done sb tl, Tiles s (done ++ sb :: tl) → A.domain.includes sb.toBlock = true →
      (∀ p, G p (statusAt (done ++ sb :: tl) p)) → ∀ v j,
        body (done ++ sb :: tl) done.length sb = some (v, j) → ∀ p, G p (statusAt v p)) :
    ∃ r, forSblocks A.domain body (loopFuel A.sblocks) A.sblocks 0 = some r ∧ (∃ s, Tiles s r) ∧
      ∀ p, G p (statusAt r p) := by
  obtain ⟨s, hs⟩ := hA.tiles
  obtain ⟨r, hr, hrt, hrG⟩ := OnEdges.run (hadv s) (headMeasure (tileEnd s A.sblocks))
    (fun _ hb' h => hb'.headMeasure_lt h) G (fun done sb tl hb => hstep s done sb tl hb.tiles)
    (show OnEdges S s (tileEnd s A.sblocks) [] A.sblocks from ⟨hs, rfl, hS⟩) h0
    (Nat.lt_succ_of_le (headMeasure_le hs))
  exact ⟨r, by simpa using hr, ⟨s, hrt⟩, hrG⟩

end Run

end Ddrescue
