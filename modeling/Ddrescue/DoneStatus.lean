import Ddrescue.Logbook

/-!
# Done status

`test_if_done` answers ddrescuelog's `--done-status` and `--delete-if-done`:
it scans the sblocks of the domain and fails at the first one that is not
finished. The scan's `break` at the first sblock past the domain hides no
sblock of the domain (`mem_scan_of_includes`), so the answer is the
byte-level statement that the whole domain is finished. With deletion the
exit status also depends on whether `std::remove` succeeds.
-/

namespace Ddrescue

/-- Every byte of the effective domain has status finished. -/
def Logbook.AllFinished (lb : Logbook) : Prop :=
  ∀ p, lb.domain.includesPos p = true → statusAt lb.sblocks p = some .finished

/-- `test_if_done`: the exit status, and whether `std::remove` was called on
the logfile. `removeOk` is the environment's answer to `std::remove`. The
first test is `verify_logname_and_domain`'s exit on an empty domain. -/
def testIfDone (lb : Logbook) (del removeOk : Bool) : ℕ × Bool :=
  if lb.domain.size = 0 then (0, false)
  else if (scan lb.domain lb.sblocks).all (·.status == .finished) then
    if !del then (0, false) else if removeOk then (0, true) else (1, true)
  else (1, false)

/-- The scanned sblocks are all finished exactly when every byte of the
domain is. -/
theorem scan_all_finished_iff {lb : Logbook} (hv : lb.Valid) :
    (scan lb.domain lb.sblocks).all (·.status == .finished) = true ↔ lb.AllFinished := by
  obtain ⟨s, hs⟩ := hv.tiles
  simp only [List.all_eq_true, beq_iff_eq]
  constructor
  · intro hall p hp
    obtain ⟨sb, hsb, -, -, hst⟩ := hv.exists_scan hp
    rw [hst, hall sb hsb]
  · intro hdone sb hsb
    obtain ⟨hmem, hin⟩ := mem_scan hsb
    have hsize := size_pos_of_mem_tiles hs hmem
    have hp := Domain.includesPos_of_includes hin (p := sb.pos) ⟨le_rfl, by omega⟩
    have := hdone sb.pos hp
    rw [statusAt_of_mem hs hmem ⟨le_rfl, by omega⟩] at this
    exact Option.some.inj this

/-- `test_if_done` on a valid logbook with a nonempty domain returns 0
exactly when the whole domain is finished and, with deletion, `std::remove`
succeeds; it calls `std::remove` exactly when deletion is asked for and the
whole domain is finished. -/
theorem testIfDone_spec {lb : Logbook} (hv : lb.Valid) (hne : lb.domain.blocks ≠ [])
    (del removeOk : Bool) :
    ((testIfDone lb del removeOk).1 = 0 ↔ lb.AllFinished ∧ (del = true → removeOk = true)) ∧
      ((testIfDone lb del removeOk).2 = true ↔ del = true ∧ lb.AllFinished) := by
  have hsize := hv.domain.size_pos hne
  unfold testIfDone
  rw [if_neg (by omega)]
  by_cases hall : lb.AllFinished
  · rw [if_pos ((scan_all_finished_iff hv).mpr hall)]
    cases del <;> cases removeOk <;> simp [hall]
  · rw [if_neg (fun h => hall ((scan_all_finished_iff hv).mp h))]
    simp [hall]

/-- `testIfDone_spec` on a one-sblock finished logbook, deleting it. -/
theorem testIfDone_spec_finished :
    let lb : Logbook := ⟨[⟨⟨0, 512⟩, .finished⟩], ⟨[⟨0, 512⟩]⟩⟩
    lb.Valid ∧ lb.domain.blocks ≠ [] ∧
      (((testIfDone lb true true).1 = 0 ↔ lb.AllFinished ∧ (true = true → true = true)) ∧
        ((testIfDone lb true true).2 = true ↔ true = true ∧ lb.AllFinished)) :=
  ⟨Logbook.Valid.of_check (by decide), by decide,
    testIfDone_spec (Logbook.Valid.of_check (by decide)) (by decide) true true⟩

/-- A finished logbook whose deletion fails makes `test_if_done` return 1:
the exit status is not determined by the domain alone. -/
theorem testIfDone_delete_failure :
    let lb : Logbook := ⟨[⟨⟨0, 512⟩, .finished⟩], ⟨[⟨0, 512⟩]⟩⟩
    lb.Valid ∧ lb.AllFinished ∧ (testIfDone lb true false).1 = 1 := by
  refine ⟨Logbook.Valid.of_check (by decide), ?_, by decide⟩
  intro p hp
  simp only [Domain.includesPos_iff, List.mem_singleton, exists_eq_left] at hp
  simp [statusAt_cons, hp]

end Ddrescue
