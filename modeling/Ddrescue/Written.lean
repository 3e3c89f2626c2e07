import Ddrescue.LogicLaws
import Ddrescue.ChangeTypes
import Ddrescue.Compare

/-!
# The logfiles ddrescuelog writes

`change_types` (also under `--invert-logfile`) and `do_logic_ops` run
`compact_sblock_vector` on their vector before `update_logfile` writes it. On a
tiling that leaves no two adjacent sblocks of one status (`Compacted`): the
compaction joins every such pair that touches, and in a tiling every adjacent
pair touches. A later run of ddrescuelog loads the logfile over its own domain,
and `split_domain_border_sblocks` cuts it only at the borders of that domain.
So the logbook it reads is in the canonical form that `compare_logfiles` needs
to decide agreement byte by byte (`Logbook.Canonical`), whatever the domain.

For every valid logbook, the vector of each of these operations is written
without a panic and has that form (`written_canonical`).
-/

namespace Ddrescue

/-- No two adjacent sblocks have one status. -/
def Compacted (l : List Sblock) : Prop := l.Chain' fun a b => a.status ≠ b.status

/-- Two adjacent sblocks of one status meet only at a position of `P`. -/
def BorderChain (P : ℕ → Prop) (l : List Sblock) : Prop :=
  l.Chain' fun a b => a.status = b.status → P b.pos

/-- `compact_sblock_vector` leaves two adjacent sblocks of one status only where
they do not touch, whatever the vector. -/
theorem compactSblockVector_chain :
    ∀ l : List Sblock,
      (compactSblockVector l).Chain' fun a b => a.status = b.status → a.pos + a.size ≠ b.pos
  | [] => List.chain'_nil
  | sb :: rest => by
    have ih := compactSblockVector_chain rest
    unfold compactSblockVector
    split
    · rename_i nx tail heq
      rw [heq] at ih
      split
      · rename_i hj
        -- the joined sblock has the status and the end of `nx`
        refine List.chain'_cons'.mpr ⟨fun t ht hst => ?_, ih.tail⟩
        have hnx := (List.chain'_cons'.mp ih).1 t ht (hj.1.symm.trans hst)
        simp only [Sblock.join] at hst ⊢
        omega
      · rename_i hj
        exact List.chain'_cons.mpr ⟨fun hst hc => hj ⟨hst, hc⟩, ih⟩
    · exact List.chain'_singleton sb

/-- In a tiling every adjacent pair touches, so the chain of the compaction
separates their statuses. -/
theorem Tiles.compacted :
    ∀ {s : ℕ} {l : List Sblock}, Tiles s l →
      l.Chain' (fun a b => a.status = b.status → a.pos + a.size ≠ b.pos) → Compacted l
  | _, [], _, _ => List.chain'_nil
  | _, [_], _, _ => List.chain'_singleton _
  | _, a :: b :: rest, ⟨_, _, hb, hrest⟩, hc => by
    obtain ⟨hab, hc⟩ := List.chain'_cons.mp hc
    exact List.chain'_cons.mpr ⟨fun hst => hab hst hb.symm, Tiles.compacted ⟨hb, hrest⟩ hc⟩

section Borders

variable {P : ℕ → Prop}

/-- The last piece of a cut has the status of the sblock cut. -/
theorem status_of_mem_last_splitAt {sb a : Sblock} {x : ℕ}
    (ha : a ∈ (sb.splitAt x).getLast?) : a.status = sb.status := by
  unfold Sblock.splitAt at ha
  split at ha <;> simp only [List.getLast?_cons_cons, List.getLast?_singleton, Option.mem_def,
    Option.some.injEq] at ha <;> exact ha ▸ rfl

/-- The first piece of the cuts of a vector starts where its first sblock
starts, with its status. -/
theorem mem_head_splitAllAt {sb b : Sblock} {rest : List Sblock} {x : ℕ}
    (hb : b ∈ (splitAllAt x (sb :: rest)).head?) : b.pos = sb.pos ∧ b.status = sb.status := by
  rw [splitAllAt, List.flatMap_cons] at hb
  unfold Sblock.splitAt at hb
  split at hb <;> simp only [List.cons_append, List.singleton_append, List.head?_cons,
    Option.mem_def, Option.some.injEq] at hb <;> exact hb ▸ ⟨rfl, rfl⟩

/-- Cutting at a position of `P` keeps the chain: the two pieces of an sblock
meet at the cut, and each other pair keeps the statuses and the start of the
second sblock of an old pair. -/
theorem splitAllAt_borderChain {x : ℕ} (hx : P x) :
    ∀ {l : List Sblock}, BorderChain P l → BorderChain P (splitAllAt x l)
  | [], _ => List.chain'_nil
  | sb :: rest, h => by
    have hpieces : BorderChain P (sb.splitAt x) := by
      unfold Sblock.splitAt
      split
      · exact List.chain'_cons.mpr ⟨fun _ => hx, List.chain'_singleton _⟩
      · exact List.chain'_singleton _
    have hrest := splitAllAt_borderChain hx (l := rest) h.tail
    show List.Chain' _ (splitAllAt x (sb :: rest))
    rw [splitAllAt, List.flatMap_cons, List.chain'_append]
    refine ⟨hpieces, hrest, fun a ha b hb hst => ?_⟩
    cases rest with
    | nil => simp [splitAllAt] at hb
    | cons r rest =>
      obtain ⟨hbpos, hbst⟩ := mem_head_splitAllAt hb
      rw [hbpos]
      exact (List.chain'_cons.mp h).1 ((status_of_mem_last_splitAt ha).symm.trans (hst.trans hbst))

/-- The cuts at the borders of blocks whose borders are all positions of `P`
keep the chain. -/
theorem splitBorders_borderChain :
    ∀ {dbs : List Block}, (∀ db ∈ dbs, P db.pos ∧ P (db.pos + db.size)) →
      ∀ {l : List Sblock}, BorderChain P l → BorderChain P (splitBorders dbs l)
  | [], _, _, h => h
  | db :: _, hdbs, _, h =>
    have hdb := hdbs db (List.mem_cons_self _ _)
    splitBorders_borderChain (fun d hd => hdbs d (List.mem_cons_of_mem _ hd))
      (splitAllAt_borderChain hdb.2 (splitAllAt_borderChain hdb.1 h))

end Borders

/-- A compacted vector loaded over any domain is canonical: the cuts of
`split_domain_border_sblocks` are the only places where two adjacent sblocks
share a status. -/
theorem Compacted.canonical {r : List Sblock} (hr : Compacted r) (d : Domain) :
    (⟨splitDomainBorderSblocks d r, d⟩ : Logbook).Canonical :=
  splitBorders_borderChain (P := fun x => ∃ db ∈ d.blocks, db.pos = x ∨ db.pos + db.size = x)
    (fun db hdb => ⟨⟨db, hdb, .inl rfl⟩, ⟨db, hdb, .inr rfl⟩⟩)
    (hr.imp fun _ _ hne heq => absurd heq hne)

/-- The form of a vector ddrescuelog writes: it tiles an interval, no two
adjacent sblocks have one status, and loaded again over any domain it is
canonical. -/
def WrittenForm (r : List Sblock) : Prop :=
  (∃ s, Tiles s r) ∧ Compacted r ∧ ∀ d : Domain, (⟨splitDomainBorderSblocks d r, d⟩ : Logbook).Canonical

/-- What an operation writes after `compact_sblock_vector` is a compaction. -/
theorem eq_compact_of_written {c : Prop} [Decidable c] {o : Option (List Sblock)} {r : List Sblock}
    (h : (if c then some .emptyDomain else o.map fun sbs => Verified.ok (compactSblockVector sbs)) =
      some (.ok r)) : ∃ l, compactSblockVector l = r := by
  split_ifs at h
  · cases h
  · obtain ⟨l, -, hl⟩ := Option.map_eq_some'.mp h
    exact ⟨l, Verified.ok.inj hl⟩

/-- A compaction that tiles an interval has the written form. -/
theorem writtenForm_of_compact {l r : List Sblock} (hr : compactSblockVector l = r) {s : ℕ}
    (hs : Tiles s r) : WrittenForm r := by
  have hc := Tiles.compacted hs (hr ▸ compactSblockVector_chain l)
  exact ⟨⟨s, hs⟩, hc, hc.canonical⟩

/-- On every valid logbook `A` with a nonempty domain, `do_logic_ops` in each mode
with every valid second logbook with a nonempty domain, and `change_types` with every
table of status characters whose second string is no shorter than the first (every
table `set_types` returns, and the table of `--invert-logfile`), write without a
panic a vector in the written form. -/
theorem written_canonical {A : Logbook} (hA : A.Valid) (hne : A.domain.blocks ≠ []) :
    (∀ B : Logbook, B.Valid → B.domain.blocks ≠ [] → ∀ mode,
      ∃ r, doLogicOps mode A B = some (.ok r) ∧ WrittenForm r) ∧
      ∀ types1 types2 : List Char, (∀ c ∈ types2, isstatus c = true) →
        types1.length ≤ types2.length →
        ∃ r, changeTypes A types1 types2 = some (.ok r) ∧ WrittenForm r := by
  refine ⟨fun B hB hneB mode => ?_, fun types1 types2 hty hlen => ?_⟩
  · obtain ⟨r, hr, ⟨s, hs⟩, -⟩ := doLogicOps_of_step hA hB hne hneB mode (fun _ _ => True)
      (fun _ => trivial) fun _ _ _ _ _ _ _ _ _ _ _ => trivial
    obtain ⟨l, hl⟩ := eq_compact_of_written hr
    exact ⟨r, hr, writtenForm_of_compact hl hs⟩
  · obtain ⟨r, hr, ⟨s, hs⟩, -⟩ := changeTypes_of_table hA hne hty hlen
    obtain ⟨l, hl⟩ := eq_compact_of_written hr
    exact ⟨r, hr, writtenForm_of_compact hl hs⟩

/-- The written form for the logfile of the OR scenario, and for every operation
on it. -/
theorem written_canonical_inner_run :
    let A : Logbook := ⟨[⟨⟨0, 100⟩, .nonTried⟩], ⟨[⟨0, 100⟩]⟩⟩
    A.Valid ∧ A.domain.blocks ≠ [] ∧
      (∀ B : Logbook, B.Valid → B.domain.blocks ≠ [] → ∀ mode,
        ∃ r, doLogicOps mode A B = some (.ok r) ∧ WrittenForm r) ∧
      ∀ types1 types2 : List Char, (∀ c ∈ types2, isstatus c = true) →
        types1.length ≤ types2.length →
        ∃ r, changeTypes A types1 types2 = some (.ok r) ∧ WrittenForm r := by
  intro A
  have hA : A.Valid := .of_check (by decide)
  exact ⟨hA, by decide, written_canonical hA (by decide)⟩

end Ddrescue
