import Ddrescue.Block

/-!
# The early exits of `do_rescue` with a DVD input

With `--dvd` (and libdvdread compiled in), `do_rescue` (src/main.cc) opens the input
with `DVDOpen` and then runs a series of checks before it hands the handle to
`Rescuebook::do_dvd_rescue`. Each failing check returns from `do_rescue`, and each is
meant to release the handle with `DVDClose( idvd )` first. We model the path through
the checks, after a successful `DVDOpen`, as a function of the answers it gets, and
count the `DVDClose` calls made before the return. Every early return closes the handle
once, except the one for an empty domain, `return empty_domain();`, which closes it
never.
-/

namespace Ddrescue

/-- The options and the answers `do_rescue` gets on its way after `DVDOpen` succeeded.
The defaults are the answers under which every check passes. -/
structure RescueRun where
  /-- `DVDGetMaxLB( idvd )`, the last logical block of the disc. -/
  maxLb : ℤ := 0
  /-- `test_domain->end()` when a test domain is given. -/
  testDomainEnd : Option ℤ := none
  verifyInputSize : Bool := false
  /-- `rescuebook.mapfile_exists()`. -/
  mapfileExists : Bool := true
  /-- `rescuebook.mapfile_isize()`. -/
  mapfileIsize : ℤ := 2048
  /-- `rescuebook.domain().empty()`. -/
  domainEmpty : Bool := false
  /-- `rescuebook.complete_only`. -/
  completeOnly : Bool := false
  /-- `o_trunc`, and `rescuebook.blank()`. -/
  oTrunc : Bool := false
  blank : Bool := true
  /-- `rescuebook.read_only()`. -/
  readOnly : Bool := false
  /-- `ask`, and the answer of `user_agrees_ids`. -/
  ask : Bool := false
  userAgrees : Bool := true
  /-- `open( oname, ... ) >= 0`, and `lseek( odes, 0, SEEK_SET ) == 0`. -/
  outputOpens : Bool := true
  outputSeeks : Bool := true
  /-- `preallocate`, and `posix_fallocate( ... ) == 0`. -/
  preallocate : Bool := false
  fallocateOk : Bool := true
  /-- `rescuebook.filename()` is set, and `rescuebook.write_mapfile( 0, true )`. -/
  hasMapfile : Bool := true
  mapfileWritten : Bool := true
  /-- `rate_logger.open_file()` and `read_logger.open_file()`. -/
  rateLogOpens : Bool := true
  readLogOpens : Bool := true

/-- How `do_rescue` returns. -/
inductive RescueReturn
  /-- `return 1` after an error message. -/
  | failure
  /-- `return empty_domain();` -/
  | emptyDomain
  /-- `return not_writable( mapname );` -/
  | notWritable
  /-- The hand-off `return rescuebook.do_dvd_rescue( idvd, odes );` -/
  | dvdRescue
  deriving DecidableEq, Repr

/-- `isize = 2048 * ( DVDGetMaxLB( idvd ) + 1 )`, then cut to the end of a test domain
when it is not positive or beyond it. -/
def RescueRun.isize (r : RescueRun) : ℤ :=
  let isize := 2048 * (r.maxLb + 1)
  match r.testDomainEnd with
  | some size => if isize ≤ 0 ∨ isize > size then size else isize
  | none => isize

/-- The checks of `do_rescue` after the domain test: truncation against a mapfile, a
read-only mapfile, `--ask`, opening and seeking the output, preallocation, creating
the mapfile and opening the two loggers, each returning after `DVDClose( idvd )`. -/
def rescueOutputChecks (r : RescueRun) : RescueReturn × ℕ :=
  if r.oTrunc ∧ !r.blank then (.failure, 1)
  else if r.readOnly then (.notWritable, 1)
  else if r.ask ∧ !r.userAgrees then (.failure, 1)
  else if !r.outputOpens then (.failure, 1)
  else if !r.outputSeeks then (.failure, 1)
  else if r.preallocate ∧ !r.fallocateOk then (.failure, 1)
  else if r.hasMapfile ∧ !r.mapfileExists ∧ !r.mapfileWritten then (.failure, 1)
  else if !r.rateLogOpens then (.failure, 1)
  else if !r.readLogOpens then (.failure, 1)
  else (.dvdRescue, 0)

/-- `do_rescue` with `dvd` set, after `DVDOpen` succeeded: how it returns and how many
times it calls `DVDClose( idvd )` before. The size test comes before the test domain
cuts `isize`; the verification of the input size compares the cut `isize`. -/
def doRescueDvd (r : RescueRun) : RescueReturn × ℕ :=
  if 2048 * (r.maxLb + 1) < 0 then (.failure, 1)
  else if r.verifyInputSize ∧ (!r.mapfileExists ∨ r.isize ≤ 0 ∨ r.mapfileIsize ≤ 0 ∨
      r.mapfileIsize ≥ llongMax) then (.failure, 1)
  else if r.verifyInputSize ∧ r.mapfileIsize ≠ r.isize then (.failure, 1)
  else if r.domainEmpty then
    if r.completeOnly ∧ !r.mapfileExists then (.failure, 1)
    else (.emptyDomain, 0)
  else rescueOutputChecks r

/-- With an empty domain (in a run that is not `--complete-only`), `do_rescue` returns
`empty_domain()` without calling `DVDClose`: the handle opened by `DVDOpen` leaks. -/
theorem doRescueDvd_empty_domain_leak :
    doRescueDvd { domainEmpty := true } = (.emptyDomain, 0) := by decide

end Ddrescue
