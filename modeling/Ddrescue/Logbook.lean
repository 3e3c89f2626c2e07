import Mathlib.Data.List.Pairwise
import Ddrescue.Block

/-!
# The sblock vector and its byte-level meaning

A `Logbook` holds the vector of sblocks read from a logfile and the domain it
was loaded over. The vector is seen through `statusAt`, the status it gives to
each byte, and it is valid when it tiles an interval (`Tiles`), when the
domain is ordered and lies inside that interval, and when no sblock crosses a
domain border, which is what the Logbook constructor establishes with
`split_domain_border_sblocks`.
-/

namespace Ddrescue

/-- The status the sblock vector gives to byte `p`: that of the first sblock
including it, or `none` outside the vector. -/
def statusAt : List Sblock → ℕ → Option Status
  | [], _ => none
  | sb :: rest, p => if sb.includesPos p then some sb.status else statusAt rest p

@[simp] theorem statusAt_nil (p : ℕ) : statusAt [] p = none := rfl

theorem statusAt_cons (sb : Sblock) (rest : List Sblock) (p : ℕ) :
    statusAt (sb :: rest) p =
      if sb.pos ≤ p ∧ p < sb.pos + sb.size then some sb.status else statusAt rest p := by
  simp [statusAt, Block.includesPos]

theorem statusAt_append (l₁ l₂ : List Sblock) (p : ℕ) :
    statusAt (l₁ ++ l₂) p = (statusAt l₁ p).or (statusAt l₂ p) := by
  induction l₁ with
  | nil => rfl
  | cons sb rest ih =>
    simp only [List.cons_append, statusAt]
    split <;> simp [ih]

/-- The sblocks tile the interval that starts at `s`: each one is nonempty
and starts where the previous one ends. -/
def Tiles : ℕ → List Sblock → Prop
  | _, [] => True
  | s, sb :: rest => sb.pos = s ∧ 0 < sb.size ∧ Tiles (sb.pos + sb.size) rest

/-- The end of the interval tiled from `s`. -/
def tileEnd : ℕ → List Sblock → ℕ
  | s, [] => s
  | _, sb :: rest => tileEnd (sb.pos + sb.size) rest

@[simp] theorem Tiles_nil (s : ℕ) : Tiles s [] := trivial

@[simp] theorem Tiles_cons (s : ℕ) (sb : Sblock) (rest : List Sblock) :
    Tiles s (sb :: rest) ↔ sb.pos = s ∧ 0 < sb.size ∧ Tiles (sb.pos + sb.size) rest := Iff.rfl

@[simp] theorem tileEnd_nil (s : ℕ) : tileEnd s [] = s := rfl

@[simp] theorem tileEnd_cons (s : ℕ) (sb : Sblock) (rest : List Sblock) :
    tileEnd s (sb :: rest) = tileEnd (sb.pos + sb.size) rest := rfl

theorem tileEnd_append (s : ℕ) (l₁ l₂ : List Sblock) :
    tileEnd s (l₁ ++ l₂) = tileEnd (tileEnd s l₁) l₂ := by
  induction l₁ generalizing s with
  | nil => rfl
  | cons sb rest ih => exact ih _

theorem Tiles_append {s : ℕ} {l₁ l₂ : List Sblock} :
    Tiles s (l₁ ++ l₂) ↔ Tiles s l₁ ∧ Tiles (tileEnd s l₁) l₂ := by
  induction l₁ generalizing s with
  | nil => simp
  | cons sb rest ih => simp [ih, and_assoc]

theorem le_tileEnd {s : ℕ} {l : List Sblock} (h : Tiles s l) : s ≤ tileEnd s l := by
  induction l generalizing s with
  | nil => exact le_rfl
  | cons sb rest ih =>
    obtain ⟨rfl, hpos, hrest⟩ := h
    have := ih hrest
    simp only [tileEnd_cons]
    omega

/-- A tiling gives no status before its start or past its end. -/
theorem statusAt_eq_none_of_tiles {s : ℕ} {l : List Sblock} (h : Tiles s l) {p : ℕ}
    (hp : p < s ∨ tileEnd s l ≤ p) : statusAt l p = none := by
  induction l generalizing s with
  | nil => rfl
  | cons sb rest ih =>
    obtain ⟨rfl, hpos, hrest⟩ := h
    have hle := le_tileEnd hrest
    simp only [tileEnd_cons] at hp
    rw [statusAt_cons, if_neg (by omega), ih hrest (by omega)]

/-- Inside the tiled interval every byte has a status. -/
theorem statusAt_isSome_of_tiles {s : ℕ} {l : List Sblock} (h : Tiles s l) {p : ℕ}
    (hp : s ≤ p ∧ p < tileEnd s l) : (statusAt l p).isSome := by
  induction l generalizing s with
  | nil => simp at hp; omega
  | cons sb rest ih =>
    obtain ⟨rfl, hpos, hrest⟩ := h
    rw [statusAt_cons]
    split
    · rfl
    · exact ih hrest ⟨by omega, hp.2⟩

/-- A byte of a member of a tiling has that member's status. -/
theorem statusAt_of_mem {s : ℕ} {l : List Sblock} (h : Tiles s l) {sb : Sblock} (hsb : sb ∈ l)
    {p : ℕ} (hp : sb.pos ≤ p ∧ p < sb.pos + sb.size) : statusAt l p = some sb.status := by
  obtain ⟨l₁, l₂, rfl⟩ := List.append_of_mem hsb
  obtain ⟨h₁, h₂⟩ := Tiles_append.mp h
  obtain ⟨hs, -, -⟩ := h₂
  rw [statusAt_append, statusAt_eq_none_of_tiles h₁ (by omega), Option.none_or,
    statusAt_cons, if_pos hp]

/-- Across the boundary of a split tiling, each byte takes its status from
the side it lies on. -/
theorem statusAt_append_of_tiles {s : ℕ} {l₁ l₂ : List Sblock} (h : Tiles s (l₁ ++ l₂))
    (p : ℕ) :
    statusAt (l₁ ++ l₂) p = if p < tileEnd s l₁ then statusAt l₁ p else statusAt l₂ p := by
  obtain ⟨h₁, h₂⟩ := Tiles_append.mp h
  rw [statusAt_append]
  split
  · cases hp : statusAt l₁ p with
    | none =>
      have hlt : p < s := by
        by_contra hge
        have := statusAt_isSome_of_tiles h₁ (p := p) ⟨by omega, by assumption⟩
        simp [hp] at this
      rw [Option.none_or, statusAt_eq_none_of_tiles h₂ (Or.inl (by have := le_tileEnd h₁; omega))]
    | some st => rfl
  · rw [statusAt_eq_none_of_tiles h₁ (by omega), Option.none_or]

theorem le_pos_of_mem_tiles {s : ℕ} {l : List Sblock} (h : Tiles s l) {sb : Sblock}
    (hsb : sb ∈ l) : s ≤ sb.pos := by
  induction l generalizing s with
  | nil => cases hsb
  | cons hd rest ih =>
    obtain ⟨rfl, hpos, hrest⟩ := h
    rcases List.mem_cons.mp hsb with rfl | hsb
    · exact le_rfl
    · have := ih hrest hsb
      omega

theorem size_pos_of_mem_tiles {s : ℕ} {l : List Sblock} (h : Tiles s l) {sb : Sblock}
    (hsb : sb ∈ l) : 0 < sb.size := by
  obtain ⟨l₁, l₂, rfl⟩ := List.append_of_mem hsb
  exact (Tiles_append.mp h).2.2.1

/-- In an ordered list of nonempty blocks no block ends past the last one. -/
theorem end_le_last_of_chain {l : List Block}
    (hchain : l.Chain' fun a b => a.pos + a.size ≤ b.pos) (hne : ∀ b ∈ l, 0 < b.size)
    {db last : Block} (hdb : db ∈ l) (hlast : l.getLast? = some last) :
    db.pos + db.size ≤ last.pos + last.size := by
  induction l generalizing db with
  | nil => cases hdb
  | cons hd rest ih =>
    cases rest with
    | nil =>
      simp only [List.getLast?_singleton, Option.some.injEq, List.mem_singleton] at hlast hdb
      subst hlast hdb
      exact le_rfl
    | cons nx rest' =>
      obtain ⟨hlt, hchain'⟩ := List.chain'_cons.mp hchain
      have hne' : ∀ b ∈ nx :: rest', 0 < b.size := fun b hb => hne b (List.mem_cons_of_mem _ hb)
      have hlast' : (nx :: rest').getLast? = some last := by
        rwa [List.getLast?_cons_cons] at hlast
      rcases List.mem_cons.mp hdb with rfl | hdb
      · have := ih hchain' hne' (List.mem_cons_self nx rest') hlast'
        have := hne' nx (List.mem_cons_self _ _)
        omega
      · exact ih hchain' hne' hdb hlast'

/-- In an ordered domain no block ends past the last one. -/
theorem Domain.Valid.end_le_last {d : Domain} (hd : d.Valid) {db last : Block}
    (hdb : db ∈ d.blocks) (hlast : d.blocks.getLast? = some last) :
    db.pos + db.size ≤ last.pos + last.size :=
  end_le_last_of_chain hd.ordered hd.nonempty hdb hlast

/-- Two blocks of a valid domain are one block or lie one before the other. -/
theorem Domain.Valid.disjoint {d : Domain} (hd : d.Valid) {a b : Block} (ha : a ∈ d.blocks)
    (hb : b ∈ d.blocks) (hab : a ≠ b) : a.pos + a.size ≤ b.pos ∨ b.pos + b.size ≤ a.pos := by
  have : IsTrans Block fun a b => a.pos + a.size ≤ b.pos := ⟨fun _ _ _ h1 h2 => by omega⟩
  have hp := (List.chain'_iff_pairwise.mp hd.ordered).imp
    (S := fun a b : Block => a.pos + a.size ≤ b.pos ∨ b.pos + b.size ≤ a.pos) Or.inl
  exact hp.forall (fun _ _ h => h.symm) ha hb hab

/-- No border of a block of a valid domain lies strictly inside a block. -/
theorem Domain.Valid.border_not_inside {d : Domain} (hd : d.Valid) {D db : Block}
    (hD : D ∈ d.blocks) (hdb : db ∈ d.blocks) {q : ℕ} (hq : D.pos < q ∧ q < D.pos + D.size) :
    db.pos ≠ q ∧ db.pos + db.size ≠ q := by
  by_cases h : db = D
  · subst h
    omega
  · have := hd.disjoint hdb hD h
    have := hd.nonempty db hdb
    omega

/-- `Domain::operator<` on an ordered domain: no byte at or after the start of
a block past the domain belongs to the domain. -/
theorem Domain.Valid.not_includesPos_of_lt {d : Domain} (hd : d.Valid) {b : Block}
    (hlt : d.lt b = true) {p : ℕ} (hp : b.pos ≤ p) : d.includesPos p = false := by
  unfold Domain.lt at hlt
  cases hlast : d.blocks.getLast? with
  | none => simp [List.getLast?_eq_none_iff.mp hlast, Domain.includesPos]
  | some last =>
    rw [hlast, Block.lt_iff] at hlt
    rw [Bool.eq_false_iff]
    intro hin
    obtain ⟨db, hdb, h1, h2⟩ := (Domain.includesPos_iff _ _).mp hin
    have := hd.end_le_last hdb hlast
    omega

/-- A block respects the domain when it lies inside one domain block or
outside all of them; `split_domain_border_sblocks` leaves no other kind. -/
def Domain.Respects (d : Domain) (b : Block) : Prop :=
  d.includes b = true ∨ ∀ p, b.pos ≤ p → p < b.pos + b.size → d.includesPos p = false

/-- A loaded logbook: the sblock vector read from the logfile and the domain
it was loaded over. -/
structure Logbook where
  /-- The sblock vector, in ascending order of position. -/
  sblocks : List Sblock
  /-- The effective rescue domain. -/
  domain : Domain
  deriving DecidableEq, Repr

/-- What the Logbook constructor guarantees of a logbook it loads: the vector
tiles an interval, the domain is ordered and lies inside that interval
(`complete_only` crops it to the vector), and no sblock crosses a domain border. -/
structure Logbook.Valid (lb : Logbook) : Prop where
  /-- The sblocks tile an interval. -/
  tiles : ∃ s, Tiles s lb.sblocks
  /-- The domain is ordered and its blocks are nonempty. -/
  domain : lb.domain.Valid
  /-- Every sblock lies inside one domain block or outside the domain. -/
  respects : ∀ sb ∈ lb.sblocks, lb.domain.Respects sb.toBlock
  /-- Every byte of the domain has a status. -/
  covered : ∀ p, lb.domain.includesPos p = true → (statusAt lb.sblocks p).isSome

/-- The sblocks on which the body of a ddrescuelog loop runs: those the domain
includes, up to the first sblock past the domain (`break`); sblocks in a gap of
the domain are skipped (`continue`). -/
def scan (d : Domain) : List Sblock → List Sblock
  | [] => []
  | sb :: rest =>
    if d.includes sb.toBlock then sb :: scan d rest
    else if d.lt sb.toBlock then []
    else scan d rest

theorem mem_scan {d : Domain} {l : List Sblock} {sb : Sblock} (h : sb ∈ scan d l) :
    sb ∈ l ∧ d.includes sb.toBlock = true := by
  induction l with
  | nil => cases h
  | cons hd rest ih =>
    unfold scan at h
    split at h
    · rcases List.mem_cons.mp h with rfl | h
      · exact ⟨List.mem_cons_self _ _, by assumption⟩
      · exact ⟨List.mem_cons_of_mem _ (ih h).1, (ih h).2⟩
    · split at h
      · cases h
      · exact ⟨List.mem_cons_of_mem _ (ih h).1, (ih h).2⟩

/-- The sblocks a loop scans come from the vector, in its order. -/
theorem scan_sublist (d : Domain) (l : List Sblock) : (scan d l).Sublist l := by
  induction l with
  | nil => exact List.Sublist.slnil
  | cons sb rest ih =>
    unfold scan
    split
    · exact ih.cons₂ sb
    · split
      · exact List.nil_sublist _
      · exact ih.cons sb

/-- The `break` of a ddrescuelog loop skips no sblock of the domain: every
nonempty sblock the domain includes is scanned. -/
theorem mem_scan_of_includes {d : Domain} (hd : d.Valid) {s : ℕ} {l : List Sblock}
    (hl : Tiles s l) {sb : Sblock} (hsb : sb ∈ l) (hin : d.includes sb.toBlock = true) :
    sb ∈ scan d l := by
  induction l generalizing s with
  | nil => cases hsb
  | cons hd' rest ih =>
    obtain ⟨rfl, hpos, hrest⟩ := hl
    unfold scan
    rcases List.mem_cons.mp hsb with rfl | hsb
    · simp [hin]
    · have hle := le_pos_of_mem_tiles hrest hsb
      split
      · exact List.mem_cons_of_mem _ (ih hrest hsb)
      · split
        · rename_i hlt
          have hsize := size_pos_of_mem_tiles hrest hsb
          have := hd.not_includesPos_of_lt hlt (p := sb.pos) (show hd'.pos ≤ sb.pos by omega)
          have := Domain.includesPos_of_includes hin (p := sb.pos) ⟨le_rfl, by omega⟩
          simp_all
        · exact ih hrest hsb

/-- A byte with a status lies in some sblock of the vector. -/
theorem exists_mem_of_statusAt_isSome {l : List Sblock} {p : ℕ}
    (h : (statusAt l p).isSome) : ∃ sb ∈ l, sb.pos ≤ p ∧ p < sb.pos + sb.size := by
  induction l with
  | nil => simp at h
  | cons hd rest ih =>
    rw [statusAt_cons] at h
    split at h
    · exact ⟨hd, List.mem_cons_self _ _, by assumption⟩
    · obtain ⟨sb, hsb, hp⟩ := ih h
      exact ⟨sb, List.mem_cons_of_mem _ hsb, hp⟩

/-- Every byte of the domain of a valid logbook lies in a scanned sblock,
which gives it its status. -/
theorem Logbook.Valid.exists_scan {lb : Logbook} (hv : lb.Valid) {p : ℕ}
    (hp : lb.domain.includesPos p = true) :
    ∃ sb ∈ scan lb.domain lb.sblocks, sb.pos ≤ p ∧ p < sb.pos + sb.size ∧
      statusAt lb.sblocks p = some sb.status := by
  obtain ⟨s, hs⟩ := hv.tiles
  obtain ⟨sb, hsb, hpin⟩ := exists_mem_of_statusAt_isSome (hv.covered p hp)
  have hin : lb.domain.includes sb.toBlock = true := by
    rcases hv.respects sb hsb with h | h
    · exact h
    · simp [h p hpin.1 hpin.2] at hp
  exact ⟨sb, mem_scan_of_includes hv.domain hs hsb hin, hpin.1, hpin.2,
    statusAt_of_mem hs hsb hpin⟩

/-- `Domain::size()`: the span from the start of the first block to the end of
the last one; zero for the empty domain. -/
def Domain.size (d : Domain) : ℕ :=
  match d.blocks.head?, d.blocks.getLast? with
  | some first, some last => last.endPos - first.pos
  | _, _ => 0

/-- A valid domain with a block has a nonzero size, so
`verify_logname_and_domain` lets it through. -/
theorem Domain.Valid.size_pos {d : Domain} (hd : d.Valid) (hne : d.blocks ≠ []) : 0 < d.size := by
  obtain ⟨first, rest, hfr⟩ := List.exists_cons_of_ne_nil hne
  obtain ⟨last, hlast⟩ := Option.isSome_iff_exists.mp
    (List.getLast?_isSome.mpr hne)
  have hf : first ∈ d.blocks := by simp [hfr]
  have hle := hd.end_le_last hf hlast
  have hpos := hd.nonempty first hf
  have hhead : d.blocks.head? = some first := by rw [hfr]; rfl
  simp only [Domain.size, hhead, hlast, Block.endPos_eq]
  omega

/-- How a command of ddrescuelog that loads a logbook ends once
`verify_logname_and_domain` has found the logfile: a logbook whose effective
domain has size 0 ends the program with "Empty domain." and exit status 0 before
anything else is done; any other runs the command to its result. -/
inductive Verified (α : Type)
  /-- "Empty domain.", exit status 0. -/
  | emptyDomain
  /-- The command ran, with this result. -/
  | ok (result : α)
  deriving DecidableEq, Repr

/-- `Tiles` as a Boolean test. -/
def tilesB : ℕ → List Sblock → Bool
  | _, [] => true
  | s, sb :: rest => sb.pos == s && 0 < sb.size && tilesB (sb.pos + sb.size) rest

theorem Tiles.of_tilesB {s : ℕ} {l : List Sblock} (h : tilesB s l = true) : Tiles s l := by
  induction l generalizing s with
  | nil => trivial
  | cons sb rest ih =>
    simp only [tilesB, Bool.and_eq_true, beq_iff_eq, decide_eq_true_eq] at h
    exact ⟨h.1.1, h.1.2, ih h.2⟩

/-- The ordering of domain blocks as a Boolean test. -/
def orderedB : List Block → Bool
  | a :: b :: rest => decide (a.pos + a.size ≤ b.pos) && orderedB (b :: rest)
  | _ => true

theorem chain_of_orderedB {l : List Block} (h : orderedB l = true) :
    l.Chain' fun a b => a.pos + a.size ≤ b.pos := by
  induction l with
  | nil => exact List.chain'_nil
  | cons a rest ih =>
    cases rest with
    | nil => exact List.chain'_singleton a
    | cons b rest' =>
      simp only [orderedB, Bool.and_eq_true, decide_eq_true_eq] at h
      exact List.chain'_cons.mpr ⟨h.1, ih h.2⟩

/-- A decidable check of `Logbook.Valid` for concrete logbooks: the vector
tiles from its first position, the domain blocks are nonempty, ordered and
inside the tiled interval, and each sblock is inside one domain block or
clear of all of them. -/
def Logbook.check (lb : Logbook) : Bool :=
  let s := (lb.sblocks.head?.map (·.pos)).getD 0
  tilesB s lb.sblocks &&
    lb.domain.blocks.all (fun db => 0 < db.size && s ≤ db.pos &&
      db.pos + db.size ≤ tileEnd s lb.sblocks) &&
    orderedB lb.domain.blocks &&
    lb.sblocks.all (fun sb => lb.domain.includes sb.toBlock ||
      lb.domain.blocks.all (fun db => db.pos + db.size ≤ sb.pos || sb.pos + sb.size ≤ db.pos))

theorem Logbook.Valid.of_check {lb : Logbook} (h : lb.check = true) : lb.Valid := by
  simp only [Logbook.check, Bool.and_eq_true, List.all_eq_true, decide_eq_true_eq,
    Bool.or_eq_true] at h
  obtain ⟨⟨⟨htiles, hdom⟩, hchain⟩, hresp⟩ := h
  have ht := Tiles.of_tilesB htiles
  refine ⟨⟨_, ht⟩, ⟨fun db hdb => (hdom db hdb).1.1, chain_of_orderedB hchain⟩, ?_, ?_⟩
  · intro sb hsb
    rcases hresp sb hsb with hin | hout
    · exact Or.inl hin
    · refine Or.inr fun p hp1 hp2 => ?_
      rw [Bool.eq_false_iff]
      intro hin
      obtain ⟨db, hdb, h1, h2⟩ := (Domain.includesPos_iff _ _).mp hin
      have := hout db hdb
      simp only [Bool.or_eq_true, decide_eq_true_eq] at this
      omega
  · intro p hp
    obtain ⟨db, hdb, h1, h2⟩ := (Domain.includesPos_iff _ _).mp hp
    have := hdom db hdb
    simp only [Bool.and_eq_true, decide_eq_true_eq] at this
    exact statusAt_isSome_of_tiles ht ⟨by omega, by omega⟩

end Ddrescue
