import Ddrescue.Logbook

/-!
# Finding the next finished chunk

`Logbook::find_chunk( b, finished )` is how `do_logic_ops` reads the second
logfile. Its code is not part of this repository; it is modelled from the spec
(§4.1) together with the way `do_logic_ops` uses the result, which may start
after `b.pos()` (the tests `b.pos() >= sb.end()` and `b.pos() == sb.pos()`):
`b` is narrowed to the first run of bytes the logbook marks finished inside
its domain, at or after `b.pos()`. `findChunk_spec` states the contract the
callers rely on.
-/

namespace Ddrescue

/-- A byte the logbook marks finished inside its domain. -/
def Logbook.FinishedAt (lb : Logbook) (p : ℕ) : Prop :=
  lb.domain.includesPos p = true ∧ statusAt lb.sblocks p = some .finished

instance (lb : Logbook) (p : ℕ) : Decidable (lb.FinishedAt p) :=
  inferInstanceAs (Decidable (_ ∧ _))

/-- Adjacent blocks joined into one. -/
def joinRuns : List Block → List Block
  | [] => []
  | b :: rest =>
    match joinRuns rest with
    | r :: tail => if b.pos + b.size = r.pos then ⟨b.pos, b.size + r.size⟩ :: tail else b :: r :: tail
    | [] => [b]

/-- The finished sblocks the domain includes, as blocks. -/
def Logbook.finishedBlocks (lb : Logbook) : List Block :=
  (lb.sblocks.filter fun sb => sb.status == .finished && lb.domain.includes sb.toBlock).map
    (·.toBlock)

/-- Modelled from the spec: `find_chunk( b, finished )` narrows `b` to the
first run of bytes the logbook marks finished inside its domain that lies at
or after `b.pos()` (§4.1). As in `Logbook::find_chunk`, the sblocks scanned are
the finished ones the domain includes; adjacent ones form one run. Without
such a run the result is empty. -/
def Logbook.findChunk (lb : Logbook) (b : Block) : Block :=
  match (joinRuns lb.finishedBlocks).find? (fun r => b.pos < r.pos + r.size) with
  | none => ⟨b.pos, 0⟩
  | some r =>
    let q := max b.pos r.pos
    ⟨q, min (b.pos + b.size) (r.pos + r.size) - q⟩

/-- What the callers of `find_chunk` rely on: a nonempty result lies inside `b`,
all its bytes are finished, and every finished byte of `b` lies at or after its
start (so the result is empty only when `b` has no finished byte). -/
structure ChunkSpec (fin : ℕ → Prop) (b c : Block) : Prop where
  /-- A nonempty result lies inside `b`. -/
  narrow : 0 < c.size → b.pos ≤ c.pos ∧ c.pos + c.size ≤ b.pos + b.size
  /-- Every byte of the result is finished. -/
  finished : ∀ p, c.pos ≤ p → p < c.pos + c.size → fin p
  /-- No finished byte of `b` lies before the result, and there is a result if
  `b` has a finished byte. -/
  first : ∀ p, b.pos ≤ p → p < b.pos + b.size → fin p → c.pos ≤ p ∧ 0 < c.size

/-- Bytes covered by a list of blocks. -/
def Covers (l : List Block) (p : ℕ) : Prop := ∃ x ∈ l, x.pos ≤ p ∧ p < x.pos + x.size

@[simp] theorem covers_nil (p : ℕ) : ¬ Covers [] p := by simp [Covers]

theorem covers_cons (x : Block) (l : List Block) (p : ℕ) :
    Covers (x :: l) p ↔ (x.pos ≤ p ∧ p < x.pos + x.size) ∨ Covers l p := by
  simp [Covers]

/-- Joining adjacent blocks covers the same bytes. -/
theorem covers_joinRuns (l : List Block) (p : ℕ) : Covers (joinRuns l) p ↔ Covers l p := by
  induction l with
  | nil => exact Iff.rfl
  | cons b rest ih =>
    unfold joinRuns
    split
    · rename_i r tail heq
      rw [heq] at ih
      rw [covers_cons b rest, ← ih, covers_cons r tail]
      split
      · rw [covers_cons]
        dsimp only
        constructor
        · rintro (h | h)
          · by_cases hb : p < b.pos + b.size
            · exact Or.inl ⟨h.1, hb⟩
            · exact Or.inr (Or.inl ⟨by omega, by omega⟩)
          · exact Or.inr (Or.inr h)
        · rintro (h | h | h)
          · exact Or.inl ⟨h.1, by omega⟩
          · exact Or.inl ⟨by omega, by omega⟩
          · exact Or.inr h
      · rw [covers_cons, covers_cons]
    · rename_i heq
      rw [heq] at ih
      rw [covers_cons, covers_cons, ← ih]

/-- Every run starts where one of the joined blocks starts and ends where one of
them ends. -/
theorem joinRuns_edges {l : List Block} {r : Block} (h : r ∈ joinRuns l) :
    (∃ x ∈ l, x.pos = r.pos) ∧ ∃ x ∈ l, x.pos + x.size = r.pos + r.size := by
  induction l generalizing r with
  | nil => cases h
  | cons b rest ih =>
    have hsub : ∀ x ∈ rest, x ∈ b :: rest := fun x hx => List.mem_cons_of_mem _ hx
    have hcons : ∀ {r}, r ∈ joinRuns rest →
        (∃ x ∈ b :: rest, x.pos = r.pos) ∧ ∃ x ∈ b :: rest, x.pos + x.size = r.pos + r.size :=
      fun hr => by
        obtain ⟨⟨x, hx, hpos⟩, y, hy, hend⟩ := ih hr
        exact ⟨⟨x, hsub x hx, hpos⟩, y, hsub y hy, hend⟩
    unfold joinRuns at h
    split at h
    · rename_i r' tail heq
      split at h
      · rename_i hadj
        rcases List.mem_cons.mp h with rfl | h
        · obtain ⟨-, y, hy, hend⟩ := hcons (heq ▸ List.mem_cons_self r' tail)
          exact ⟨⟨b, List.mem_cons_self _ _, rfl⟩, y, hy, by dsimp only; omega⟩
        · exact hcons (heq ▸ List.mem_cons_of_mem _ h)
      · rcases List.mem_cons.mp h with rfl | h
        · exact ⟨⟨r, List.mem_cons_self _ _, rfl⟩, r, List.mem_cons_self _ _, rfl⟩
        · exact hcons (heq ▸ h)
    · rw [List.mem_singleton.mp h]
      exact ⟨⟨b, List.mem_cons_self _ _, rfl⟩, b, List.mem_cons_self _ _, rfl⟩

/-- The blocks are in order: each ends at or before every later one starts. -/
def Sorted (l : List Block) : Prop := l.Pairwise fun a b => a.pos + a.size ≤ b.pos

/-- Joining keeps a sorted list of nonempty blocks sorted and nonempty. -/
theorem sorted_joinRuns {l : List Block} (hs : Sorted l) (hne : ∀ x ∈ l, 0 < x.size) :
    Sorted (joinRuns l) ∧ ∀ r ∈ joinRuns l, 0 < r.size := by
  induction l with
  | nil => exact ⟨List.Pairwise.nil, fun _ h => by cases h⟩
  | cons b rest ih =>
    obtain ⟨hb, hrest⟩ := List.pairwise_cons.mp hs
    obtain ⟨ih1, ih2⟩ := ih hrest fun x hx => hne x (List.mem_cons_of_mem _ hx)
    have hbpos := hne b (List.mem_cons_self _ _)
    unfold joinRuns
    split
    · rename_i r tail heq
      rw [heq] at ih1 ih2
      obtain ⟨hr, htail⟩ := List.pairwise_cons.mp ih1
      have hrpos := ih2 r (List.mem_cons_self _ _)
      split
      · refine ⟨List.pairwise_cons.mpr ⟨fun y hy => ?_, htail⟩, fun y hy => ?_⟩
        · have := hr y hy
          dsimp only
          omega
        · rcases List.mem_cons.mp hy with rfl | hy
          · dsimp only; omega
          · exact ih2 y (List.mem_cons_of_mem _ hy)
      · have hbr : ∀ y ∈ r :: tail, b.pos + b.size ≤ y.pos := by
          intro y hy
          obtain ⟨x, hx, hxpos⟩ := (joinRuns_edges (heq ▸ hy)).1
          exact hxpos ▸ hb x hx
        refine ⟨List.pairwise_cons.mpr ⟨hbr, ih1⟩, fun y hy => ?_⟩
        rcases List.mem_cons.mp hy with rfl | hy
        · exact hbpos
        · exact ih2 y hy
    · exact ⟨List.pairwise_singleton _ _, fun y hy => (List.mem_singleton.mp hy) ▸ hbpos⟩

/-- A tiling is sorted. -/
theorem sorted_of_tiles {s : ℕ} {l : List Sblock} (h : Tiles s l) :
    Sorted (l.map (·.toBlock)) := by
  induction l generalizing s with
  | nil => exact List.Pairwise.nil
  | cons sb rest ih =>
    obtain ⟨rfl, hpos, hrest⟩ := h
    refine List.pairwise_cons.mpr ⟨fun y hy => ?_, ih hrest⟩
    obtain ⟨x, hx, rfl⟩ := List.mem_map.mp hy
    exact le_pos_of_mem_tiles hrest hx

/-- The finished blocks cover exactly the bytes the logbook marks finished
inside its domain. -/
theorem covers_finishedBlocks {lb : Logbook} (hv : lb.Valid) (p : ℕ) :
    Covers lb.finishedBlocks p ↔ lb.FinishedAt p := by
  obtain ⟨s, hs⟩ := hv.tiles
  constructor
  · rintro ⟨x, hx, hp⟩
    obtain ⟨sb, hsb, rfl⟩ := List.mem_map.mp hx
    obtain ⟨hmem, hsel⟩ := List.mem_filter.mp hsb
    simp only [Bool.and_eq_true, beq_iff_eq] at hsel
    refine ⟨Domain.includesPos_of_includes hsel.2 hp, ?_⟩
    rw [statusAt_of_mem hs hmem hp, hsel.1]
  · rintro ⟨hdom, hst⟩
    obtain ⟨sb, hsb, hp⟩ := exists_mem_of_statusAt_isSome (l := lb.sblocks) (p := p) (by simp [hst])
    rw [statusAt_of_mem hs hsb hp] at hst
    have hin : lb.domain.includes sb.toBlock = true := by
      rcases hv.respects sb hsb with h | h
      · exact h
      · simp [h p hp.1 hp.2] at hdom
    refine ⟨sb.toBlock, List.mem_map.mpr ⟨sb, List.mem_filter.mpr ⟨hsb, ?_⟩, rfl⟩, hp⟩
    simp [Option.some.inj hst, hin]

/-- `find_chunk` meets the contract its callers rely on. -/
theorem findChunk_spec {lb : Logbook} (hv : lb.Valid) (b : Block) :
    ChunkSpec lb.FinishedAt b (lb.findChunk b) := by
  obtain ⟨s, hs⟩ := hv.tiles
  have hsorted : Sorted lb.finishedBlocks :=
    (sorted_of_tiles hs).sublist ((List.filter_sublist _).map _)
  have hne : ∀ x ∈ lb.finishedBlocks, 0 < x.size := by
    intro x hx
    obtain ⟨sb, hsb, rfl⟩ := List.mem_map.mp hx
    exact size_pos_of_mem_tiles hs (List.mem_filter.mp hsb).1
  obtain ⟨hrs, hrne⟩ := sorted_joinRuns hsorted hne
  have hcov : ∀ p, lb.FinishedAt p ↔ Covers (joinRuns lb.finishedBlocks) p := fun p =>
    (covers_finishedBlocks hv p).symm.trans (covers_joinRuns _ p).symm
  unfold Logbook.findChunk
  split
  · rename_i hnone
    refine ⟨fun h => absurd h (lt_irrefl 0), fun p h1 h2 => by dsimp only at h1 h2; omega, ?_⟩
    intro p hp1 hp2 hfin
    obtain ⟨r, hr, hpr⟩ := (hcov p).mp hfin
    have := List.find?_eq_none.mp hnone r hr
    simp only [decide_eq_true_eq] at this
    omega
  · rename_i r hsome
    obtain ⟨hpred, as, bs, hsplit, hbefore⟩ := List.find?_eq_some.mp hsome
    simp only [decide_eq_true_eq] at hpred
    have hrpos := hrne r (by rw [hsplit]; simp)
    refine ⟨fun hsz => ⟨le_max_left _ _, by dsimp only at hsz ⊢; omega⟩, fun p h1 h2 => ?_,
      fun p hp1 hp2 hfin => ?_⟩ <;> dsimp only at *
    · exact (hcov p).mpr ⟨r, by rw [hsplit]; simp, by omega⟩
    · obtain ⟨r', hr', hpr'⟩ := (hcov p).mp hfin
      rw [hsplit] at hr' hrs
      rcases List.mem_append.mp hr' with hr' | hr'
      · have := hbefore r' hr'
        simp only [decide_eq_true_eq, Bool.not_eq_true', decide_eq_false_iff_not, not_lt] at this
        omega
      · rcases List.mem_cons.mp hr' with rfl | hr'
        · omega
        · have hsep := (List.pairwise_cons.mp (List.pairwise_append.mp hrs).2.1).1 r' hr'
          omega

/-- The chunk starts at `b.pos()` or where an sblock of the logbook starts, and a
nonempty chunk ends at `b.end()` or where an sblock of the logbook ends. -/
theorem findChunk_edges (lb : Logbook) (b : Block) :
    ((lb.findChunk b).pos = b.pos ∨ ∃ sb ∈ lb.sblocks, (lb.findChunk b).pos = sb.pos) ∧
      (0 < (lb.findChunk b).size →
        (lb.findChunk b).pos + (lb.findChunk b).size = b.pos + b.size ∨
          ∃ sb ∈ lb.sblocks, (lb.findChunk b).pos + (lb.findChunk b).size = sb.pos + sb.size) := by
  have hfin : ∀ x ∈ lb.finishedBlocks, ∃ sb ∈ lb.sblocks, sb.toBlock = x := fun x hx => by
    obtain ⟨sb, hsb, rfl⟩ := List.mem_map.mp hx
    exact ⟨sb, (List.mem_filter.mp hsb).1, rfl⟩
  unfold Logbook.findChunk
  split
  · exact ⟨.inl rfl, fun h => absurd h (lt_irrefl 0)⟩
  · rename_i r hsome
    obtain ⟨⟨x, hx, hpos⟩, y, hy, hend⟩ := joinRuns_edges (List.mem_of_find?_eq_some hsome)
    obtain ⟨sx, hsx, rfl⟩ := hfin x hx
    obtain ⟨sy, hsy, rfl⟩ := hfin y hy
    dsimp only at hpos hend ⊢
    refine ⟨?_, fun hsz => ?_⟩
    · rcases le_total b.pos r.pos with h | h
      · exact .inr ⟨sx, hsx, by rw [max_eq_right h, ← hpos]⟩
      · exact .inl (max_eq_left h)
    · rcases le_total (b.pos + b.size) (r.pos + r.size) with h | h
      · exact .inl (by rw [min_eq_left h] at hsz ⊢; omega)
      · exact .inr ⟨sy, hsy, by rw [min_eq_right h] at hsz ⊢; omega⟩

end Ddrescue
