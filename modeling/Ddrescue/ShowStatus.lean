import Ddrescue.CreateLog
import Ddrescue.DoneStatus

/-!
# The summary of `ddrescuelog --show-status`

`do_show_status` (src/ddrescuelog.cc) walks the sblock vector once. It adds the size
of each sblock of the domain to the total of its status, counts an area of a status
when an sblock starts one (`first_block`, or a status other than `old_status`), and
counts an error when an sblock of a status other than non-tried and finished follows
a good stretch (`good`). An sblock in a gap of the domain sets `first_block` and `good`
again; the first sblock past the domain ends the loop.

`verify_logname_and_domain` ends the command on an empty domain before the loop
(`Verified.emptyDomain`). Otherwise we count bytes. After the sblocks below a byte
`t`, the counters hold the number of domain bytes below `t` of each status, the
number of bytes below `t` that start an area, and the number that start an error run,
in the domain's byte order (`ShowInv`). So the sizes add up to `domain.in_size()`, no
addition overflows `long long` while every block ends by `LLONG_MAX`, and areas and
errors count maximal runs that a gap of the domain breaks (`doShowStatus_counts`).
When no two blocks of the domain touch, the areas are the maximal runs inside each
domain block (`doShowStatus_spec`).

The two ways ddrescuelog reports a finished rescue agree: `test_if_done` returns 0
exactly when `do_show_status` finds finished bytes filling `domain.in_size()`
(`testIfDone_iff_showStatus`).
-/

namespace Ddrescue

/-! ### Counting bytes -/

/-- The number of bytes in `[a, a + n)` that meet `P`. -/
def countFrom (P : ℕ → Bool) (a n : ℕ) : ℕ := (List.range' a n).countP P

theorem countFrom_add (P : ℕ → Bool) (a m n : ℕ) :
    countFrom P a (m + n) = countFrom P a m + countFrom P (a + m) n := by
  rw [countFrom, Nat.add_comm m n, ← List.range'_append_1, List.countP_append]
  rfl

theorem countFrom_succ (P : ℕ → Bool) (a n : ℕ) :
    countFrom P a (n + 1) = (if P a then 1 else 0) + countFrom P (a + 1) n := by
  simp only [countFrom, List.range'_succ, List.countP_cons]
  omega

theorem countFrom_le (P : ℕ → Bool) (a n : ℕ) : countFrom P a n ≤ n :=
  (List.countP_le_length _).trans (by simp)

theorem countFrom_eq_zero {P : ℕ → Bool} {a n : ℕ} (h : ∀ p, a ≤ p → p < a + n → P p = false) :
    countFrom P a n = 0 :=
  List.countP_eq_zero.mpr fun p hp => by
    rw [List.mem_range'_1] at hp
    simp [h p hp.1 hp.2]

theorem countFrom_eq_self {P : ℕ → Bool} {a n : ℕ} (h : ∀ p, a ≤ p → p < a + n → P p = true) :
    countFrom P a n = n := by
  rw [countFrom, List.countP_eq_length.mpr fun p hp => ?_, List.length_range']
  rw [List.mem_range'_1] at hp
  exact h p hp.1 hp.2

theorem countFrom_congr {P Q : ℕ → Bool} {a n : ℕ} (h : ∀ p, a ≤ p → p < a + n → P p = Q p) :
    countFrom P a n = countFrom Q a n :=
  List.countP_congr fun p hp => by
    rw [List.mem_range'_1] at hp
    rw [h p hp.1 hp.2]

/-- Two tests no byte meets together count, together, the bytes that meet either. -/
theorem countFrom_or {P Q : ℕ → Bool} (h : ∀ p, ¬(P p = true ∧ Q p = true)) (a n : ℕ) :
    countFrom (fun p => P p || Q p) a n = countFrom P a n + countFrom Q a n := by
  induction n generalizing a with
  | zero => rfl
  | succ n ih =>
    rw [countFrom_succ, countFrom_succ, countFrom_succ, ih]
    have := h a
    rcases hP : P a <;> rcases hQ : Q a <;> simp [hP, hQ] at this ⊢ <;> omega

/-- A count from `0` stops growing once no byte meets the test. -/
theorem countFrom_stable {P : ℕ → Bool} {m n : ℕ} (hm : ∀ p, m ≤ p → P p = false)
    (hn : ∀ p, n ≤ p → P p = false) : countFrom P 0 m = countFrom P 0 n := by
  rcases le_total m n with h | h
  · have : countFrom P m (n - m) = 0 := countFrom_eq_zero fun p hp _ => hm p hp
    rw [show n = m + (n - m) by omega, countFrom_add, Nat.zero_add, this, Nat.add_zero]
  · have : countFrom P n (m - n) = 0 := countFrom_eq_zero fun p hp _ => hn p hp
    rw [show m = n + (m - n) by omega, countFrom_add, Nat.zero_add, this, Nat.add_zero]

/-! ### The bytes of a logbook -/

/-- A status `do_show_status` counts as an error: neither non-tried nor finished. -/
def Status.isError : Status → Bool
  | .nonTried | .finished => false
  | .nonTrimmed | .nonSplit | .badSector => true

section Bytes

variable (lb : Logbook)

/-- Byte `p` is a byte of the domain with status `st`. -/
def Logbook.isAt (st : Status) (p : ℕ) : Bool :=
  lb.domain.includesPos p && decide (statusAt lb.sblocks p = some st)

/-- Byte `p` is a byte of the domain with an error status. -/
def Logbook.errorAt (p : ℕ) : Bool :=
  lb.domain.includesPos p && (statusAt lb.sblocks p).any Status.isError

/-- Byte `p` starts an area of status `st`: a maximal run, in the domain's byte order,
of bytes of that status. The byte before it is not a byte of the domain with status
`st`: it lies in a gap of the domain, or it has another status. -/
def Logbook.areaStart (st : Status) (p : ℕ) : Bool :=
  lb.isAt st p && !(decide (0 < p) && lb.isAt st (p - 1))

/-- Byte `p` starts an error run: a maximal run of bytes of the domain with an error
status, which a gap of the domain or a non-tried or finished byte breaks. -/
def Logbook.errorStart (p : ℕ) : Bool :=
  lb.errorAt p && !(decide (0 < p) && lb.errorAt (p - 1))

/-- Byte `p` starts a maximal run of status `st` inside its own domain block: it is
the first byte of its block, or the byte before it has another status. -/
def Logbook.blockAreaStart (st : Status) (p : ℕ) : Bool :=
  lb.isAt st p && !(lb.domain.blocks.any (fun db => db.pos < p && p < db.pos + db.size) &&
    decide (statusAt lb.sblocks (p - 1) = some st))

/-- The number of bytes of the domain that meet `P`: all of them lie below the
domain's end. -/
def Logbook.countBytes (P : ℕ → Bool) : ℕ := countFrom P 0 lb.domain.endPos

/-- The byte before `t` is a byte of the domain. -/
def Logbook.follows (t : ℕ) : Bool := decide (0 < t) && lb.domain.includesPos (t - 1)

end Bytes

/-- The sum of the sizes of a list of blocks. -/
def sizeSum : List Block → ℕ
  | [] => 0
  | b :: rest => b.size + sizeSum rest

/-- `Domain::in_size()`: the number of bytes of the domain, the sum of the sizes of
its blocks. -/
def Domain.inSize (d : Domain) : ℕ := sizeSum d.blocks

/-! ### The loop of `do_show_status` -/

/-- The variables of the loop of `do_show_status`: `size_non_tried` to `size_finished`
and `areas_non_tried` to `areas_finished`, by status, then `errors`, `old_status`,
`first_block` and `good`. -/
structure ShowCounts where
  /-- `size_<status>`. -/
  size : Status → ℕ
  /-- `areas_<status>`. -/
  areas : Status → ℕ
  errors : ℕ
  oldStatus : Status
  firstBlock : Bool
  good : Bool

/-- The variables as `do_show_status` declares them. -/
def ShowCounts.initial : ShowCounts := ⟨fun _ => 0, fun _ => 0, 0, .nonTried, true, true⟩

/-- One pass of the loop on an sblock the domain includes; `none` when the size total
overflows `long long`. The five cases of the `switch` differ only in the totals they
add to and in `good`: a non-tried or finished sblock sets it, an sblock of another
status clears it and counts an error when it was set. -/
def ShowCounts.count (c : ShowCounts) (sb : Sblock) : Option ShowCounts :=
  let sc := c.firstBlock || decide (sb.status ≠ c.oldStatus)
  if llongMax < ((c.size sb.status + sb.size : ℕ) : ℤ) then none
  else some
    { size := fun st => if st = sb.status then c.size st + sb.size else c.size st
      areas := fun st => if sc ∧ st = sb.status then c.areas st + 1 else c.areas st
      errors := if sb.status.isError && c.good then c.errors + 1 else c.errors
      oldStatus := sb.status
      firstBlock := false
      good := !sb.status.isError }

/-- The loop `for( int i = 0; i < logbook.sblocks(); ++i )` of `do_show_status`: an
sblock the domain does not include ends the loop when it lies past the domain and
otherwise sets `first_block` and `good`. -/
def showStatusLoop (d : Domain) : ShowCounts → List Sblock → Option ShowCounts
  | c, [] => some c
  | c, sb :: rest =>
    if d.includes sb.toBlock then (c.count sb).bind fun c' => showStatusLoop d c' rest
    else if d.lt sb.toBlock then some c
    else showStatusLoop d { c with firstBlock := true, good := true } rest

/-- What `do_show_status` computes before it prints: after the exit of
`verify_logname_and_domain` on an empty domain, the variables after the loop, and
`errsize = size_non_trimmed + size_non_split + size_bad_sector`; `none` when an
addition overflows `long long` (the totals are not negative, so the sum overflows
when one of its two additions does). -/
def doShowStatus (lb : Logbook) : Option (Verified (ShowCounts × ℕ)) :=
  if lb.domain.size = 0 then some .emptyDomain
  else (showStatusLoop lb.domain .initial lb.sblocks).bind fun c =>
    let errsize := c.size .nonTrimmed + c.size .nonSplit + c.size .badSector
    if llongMax < (errsize : ℤ) then none else some (.ok (c, errsize))

/-! ### What the variables count -/

section Bytes

variable {lb : Logbook} {p : ℕ}

/-- Outside the domain no byte counts. -/
theorem Logbook.counts_of_not_includesPos (hp : lb.domain.includesPos p = false) (st : Status) :
    lb.isAt st p = false ∧ lb.errorAt p = false ∧ lb.areaStart st p = false ∧
      lb.errorStart p = false := by
  simp [Logbook.isAt, Logbook.errorAt, Logbook.areaStart, Logbook.errorStart, hp]

/-- Inside an sblock the domain includes, every byte is a byte of the domain with the
sblock's status. -/
theorem Logbook.isAt_of_includes {s : ℕ} {sb : Sblock} (hs : Tiles s lb.sblocks)
    (hsb : sb ∈ lb.sblocks) (hin : lb.domain.includes sb.toBlock = true)
    (hp : sb.pos ≤ p ∧ p < sb.pos + sb.size) (st : Status) :
    lb.isAt st p = decide (sb.status = st) ∧ lb.errorAt p = sb.status.isError := by
  simp [Logbook.isAt, Logbook.errorAt, Domain.includesPos_of_includes hin hp,
    statusAt_of_mem hs hsb hp]

end Bytes

/-- What the variables of `do_show_status` hold after the sblocks below byte `t`: the
totals count the domain bytes below `t` of each status, `areas` and `errors` the bytes
below `t` that start an area or an error run; `first_block` says that byte `t - 1` is
not a byte of the domain, and otherwise `old_status` is its status and `good` says
that its status is not an error status. -/
structure ShowInv (lb : Logbook) (t : ℕ) (c : ShowCounts) : Prop where
  size : ∀ st, c.size st = countFrom (lb.isAt st) 0 t
  areas : ∀ st, c.areas st = countFrom (lb.areaStart st) 0 t
  errors : c.errors = countFrom lb.errorStart 0 t
  firstBlock : c.firstBlock = !lb.follows t
  oldStatus : lb.follows t = true → lb.isAt c.oldStatus (t - 1) = true
  good : c.good = !(lb.follows t && lb.errorAt (t - 1))

section Pass

variable {lb : Logbook} {s t : ℕ} {c : ShowCounts} {sb : Sblock}

/-- The variables as `do_show_status` declares them hold the invariant at any byte
below which the domain has no byte. -/
theorem ShowInv.start (hbefore : ∀ p, p < t → lb.domain.includesPos p = false) :
    ShowInv lb t .initial := by
  have hno := fun p (hp : p < t) st => Logbook.counts_of_not_includesPos (hbefore p hp) st
  have hfollows : lb.follows t = false := by
    rcases Nat.eq_zero_or_pos t with h | h
    · simp [Logbook.follows, h]
    · simp [Logbook.follows, hbefore (t - 1) (by omega)]
  exact ⟨fun st => (countFrom_eq_zero fun p _ hp => (hno p (by omega) st).1).symm,
    fun st => (countFrom_eq_zero fun p _ hp => (hno p (by omega) st).2.2.1).symm,
    (countFrom_eq_zero fun p _ hp => (hno p (by omega) .nonTried).2.2.2).symm,
    by simp [ShowCounts.initial, hfollows], by simp [hfollows],
    by simp [ShowCounts.initial, hfollows]⟩

/-- The flags tell whether the byte before `t` has status `st`. -/
theorem ShowInv.prev_isAt (h : ShowInv lb t c) (st : Status) :
    (decide (0 < t) && lb.isAt st (t - 1)) = (lb.follows t && decide (c.oldStatus = st)) := by
  cases hf : lb.follows t
  · simp only [Logbook.follows, Bool.and_eq_false_iff, decide_eq_false_iff_not] at hf
    rcases hf with hf | hf
    · simp [hf]
    · simp [Logbook.isAt, hf]
  · have hold := h.oldStatus hf
    simp only [Logbook.follows, Logbook.isAt, Bool.and_eq_true, decide_eq_true_eq] at hf hold
    simp [Logbook.isAt, hf.1, hold.1, hold.2]

/-- The flags tell whether the byte before `t` is an error byte. -/
theorem ShowInv.prev_errorAt (h : ShowInv lb t c) :
    (decide (0 < t) && lb.errorAt (t - 1)) = !c.good := by
  rw [h.good, Bool.not_not, Logbook.follows, Logbook.errorAt]
  cases decide (0 < t) <;> cases lb.domain.includesPos (t - 1) <;> rfl

/-- Counting over an sblock whose bytes other than the first never meet the test adds
the first byte's count. -/
theorem countFrom_sblock {P : ℕ → Bool} (hsize : 0 < sb.size)
    (hP : ∀ p, sb.pos < p → p < sb.pos + sb.size → P p = false) :
    countFrom P 0 (sb.pos + sb.size) = countFrom P 0 sb.pos + if P sb.pos then 1 else 0 := by
  obtain ⟨n, hn⟩ : ∃ n, sb.size = n + 1 := ⟨sb.size - 1, by omega⟩
  have : countFrom P (sb.pos + 1) n = 0 := countFrom_eq_zero fun p h1 h2 => hP p (by omega) (by omega)
  rw [countFrom_add, Nat.zero_add, hn, countFrom_succ, this, Nat.add_zero]

/-- Inside an sblock the domain includes, no byte but the first starts an area or an
error run. -/
theorem Logbook.starts_inside (hs : Tiles s lb.sblocks) (hsb : sb ∈ lb.sblocks)
    (hin : lb.domain.includes sb.toBlock = true) {p : ℕ} (h1 : sb.pos < p)
    (h2 : p < sb.pos + sb.size) (st : Status) :
    lb.areaStart st p = false ∧ lb.errorStart p = false := by
  obtain ⟨ha, he⟩ := Logbook.isAt_of_includes hs hsb hin ⟨by omega, h2⟩ st
  obtain ⟨ha', he'⟩ := Logbook.isAt_of_includes hs hsb hin (p := p - 1) ⟨by omega, by omega⟩ st
  simp [Logbook.areaStart, Logbook.errorStart, ha, he, ha', he', show 0 < p by omega]

/-- The first byte of an sblock the domain includes starts an area of its status
exactly when `sc` is set: `first_block`, or a status other than `old_status`. -/
theorem ShowInv.areaStart_first (hs : Tiles s lb.sblocks) (hsb : sb ∈ lb.sblocks)
    (hin : lb.domain.includes sb.toBlock = true) (h : ShowInv lb sb.pos c) (st : Status) :
    lb.areaStart st sb.pos =
      ((c.firstBlock || decide (sb.status ≠ c.oldStatus)) && decide (st = sb.status)) := by
  have hsize := size_pos_of_mem_tiles hs hsb
  rw [Logbook.areaStart, h.prev_isAt,
    (Logbook.isAt_of_includes hs hsb hin ⟨le_rfl, by omega⟩ st).1, h.firstBlock]
  by_cases hst : st = sb.status
  · subst hst
    cases lb.follows sb.pos <;> simp [eq_comm]
  · simp [Ne.symm hst, hst]

/-- The first byte of an sblock the domain includes starts an error run exactly when
its status is an error status and `good` is set. -/
theorem ShowInv.errorStart_first (hs : Tiles s lb.sblocks) (hsb : sb ∈ lb.sblocks)
    (hin : lb.domain.includes sb.toBlock = true) (h : ShowInv lb sb.pos c) :
    lb.errorStart sb.pos = (sb.status.isError && c.good) := by
  have hsize := size_pos_of_mem_tiles hs hsb
  rw [Logbook.errorStart, h.prev_errorAt,
    (Logbook.isAt_of_includes hs hsb hin ⟨le_rfl, by omega⟩ .nonTried).2, Bool.not_not]

/-- A pass on an sblock the domain includes keeps the invariant from the sblock's
start to its end; the total it adds to does not overflow while the sblock ends by
`LLONG_MAX`. -/
theorem ShowInv.count (hs : Tiles s lb.sblocks) (hsb : sb ∈ lb.sblocks)
    (hin : lb.domain.includes sb.toBlock = true) (hfit : ((sb.pos + sb.size : ℕ) : ℤ) ≤ llongMax)
    (h : ShowInv lb sb.pos c) : ∃ c', c.count sb = some c' ∧ ShowInv lb (sb.pos + sb.size) c' := by
  have hsize := size_pos_of_mem_tiles hs hsb
  have hbyte : ∀ p, sb.pos ≤ p → p < sb.pos + sb.size → ∀ st,
      lb.isAt st p = decide (sb.status = st) ∧ lb.errorAt p = sb.status.isError :=
    fun p h1 h2 st => Logbook.isAt_of_includes hs hsb hin ⟨h1, h2⟩ st
  -- the totals: every byte of `sb` has its status
  have hsz : ∀ st, countFrom (lb.isAt st) 0 (sb.pos + sb.size) =
      if st = sb.status then c.size st + sb.size else c.size st := by
    intro st
    rw [countFrom_add, Nat.zero_add, ← h.size st]
    split_ifs with hst
    · rw [countFrom_eq_self fun p h1 h2 => (hbyte p h1 h2 st).1.trans (by simp [hst])]
    · rw [countFrom_eq_zero fun p h1 h2 => by simp [(hbyte p h1 h2 st).1, Ne.symm hst],
        Nat.add_zero]
  have hcheck : ¬llongMax < ((c.size sb.status + sb.size : ℕ) : ℤ) := by
    have := countFrom_le (lb.isAt sb.status) 0 (sb.pos + sb.size)
    rw [hsz, if_pos rfl] at this
    omega
  -- the flags now describe the last byte of `sb`
  have hlast := hbyte (sb.pos + sb.size - 1) (by omega) (by omega)
  have hfollows : lb.follows (sb.pos + sb.size) = true := by
    simp [Logbook.follows, show 0 < sb.pos + sb.size by omega,
      Domain.includesPos_of_includes hin (show sb.pos ≤ sb.pos + sb.size - 1 ∧ _ by omega)]
  refine ⟨_, by simp only [ShowCounts.count]; rw [if_neg hcheck], fun st => (hsz st).symm,
    fun st => ?_, ?_, by simp [hfollows], fun _ => by simp [(hlast _).1],
    by simp [hfollows, (hlast .nonTried).2]⟩
  · rw [countFrom_sblock hsize fun p h1 h2 => (Logbook.starts_inside hs hsb hin h1 h2 st).1,
      ← h.areas st, h.areaStart_first hs hsb hin]
    dsimp only
    generalize (c.firstBlock || decide (sb.status ≠ c.oldStatus)) = sc
    by_cases hst : st = sb.status <;> cases sc <;> simp [hst]
  · rw [countFrom_sblock hsize fun p h1 h2 =>
      (Logbook.starts_inside hs hsb hin h1 h2 .nonTried).2, ← h.errors,
      h.errorStart_first hs hsb hin]
    cases sb.status.isError && c.good <;> rfl

/-- Outside the domain the counts stay as they are. -/
theorem countFrom_outside {P : ℕ → Bool} {n : ℕ}
    (hP : ∀ p, t ≤ p → p < t + n → P p = false) : countFrom P 0 (t + n) = countFrom P 0 t := by
  rw [countFrom_add, Nat.zero_add, countFrom_eq_zero hP, Nat.add_zero]

/-- A pass on an sblock in a gap of the domain keeps the invariant from the sblock's
start to its end. -/
theorem ShowInv.gap (hsize : 0 < sb.size)
    (hout : ∀ p, sb.pos ≤ p → p < sb.pos + sb.size → lb.domain.includesPos p = false)
    (h : ShowInv lb sb.pos c) :
    ShowInv lb (sb.pos + sb.size) { c with firstBlock := true, good := true } := by
  have hno := fun p h1 h2 st => Logbook.counts_of_not_includesPos (hout p h1 h2) st
  have hfollows : lb.follows (sb.pos + sb.size) = false := by
    simp [Logbook.follows, hout (sb.pos + sb.size - 1) (by omega) (by omega)]
  exact ⟨fun st => (h.size st).trans (countFrom_outside fun p h1 h2 => (hno p h1 h2 st).1).symm,
    fun st => (h.areas st).trans (countFrom_outside fun p h1 h2 => (hno p h1 h2 st).2.2.1).symm,
    h.errors.trans (countFrom_outside fun p h1 h2 => (hno p h1 h2 .nonTried).2.2.2).symm,
    by simp [hfollows], by simp [hfollows], by simp [hfollows]⟩

end Pass

/-- The loop of `do_show_status` over the sblocks from a byte `t` of the vector on,
started with variables that hold the invariant at `t`, ends without overflow with
variables that hold the invariant at a byte past which the domain has no byte. -/
theorem showStatusLoop_spec {lb : Logbook} (hv : lb.Valid) {s : ℕ} (hs : Tiles s lb.sblocks)
    (hfit : ∀ sb ∈ lb.sblocks, ((sb.pos + sb.size : ℕ) : ℤ) ≤ llongMax) {done todo : List Sblock}
    (hV : done ++ todo = lb.sblocks) {c : ShowCounts} (h : ShowInv lb (tileEnd s done) c) :
    ∃ c' t, showStatusLoop lb.domain c todo = some c' ∧ ShowInv lb t c' ∧
      ∀ p, t ≤ p → lb.domain.includesPos p = false := by
  induction todo generalizing done c with
  | nil =>
    refine ⟨c, _, rfl, h, fun p hp => Bool.eq_false_iff.mpr fun hin => ?_⟩
    have := hv.covered p hin
    rw [← hV, statusAt_eq_none_of_tiles (hV ▸ hs) (Or.inr (by simpa using hp))] at this
    cases this
  | cons sb rest ih =>
    have hts := hV ▸ hs
    have hpos : sb.pos = tileEnd s done := (Tiles_append.mp hts).2.1
    have hsb : sb ∈ lb.sblocks := hV ▸ List.mem_append_right _ (List.mem_cons_self _ _)
    have hV' : (done ++ [sb]) ++ rest = lb.sblocks := by simpa using hV
    have hend : tileEnd s (done ++ [sb]) = sb.pos + sb.size := by simp [tileEnd_append]
    rw [← hpos] at h
    simp only [showStatusLoop]
    split_ifs with hin hlt
    · obtain ⟨c', hc', h'⟩ := h.count hs hsb hin (hfit sb hsb)
      rw [hc', Option.some_bind]
      exact ih hV' (hend ▸ h')
    · exact ⟨c, sb.pos, rfl, h, fun p hp => hv.domain.not_includesPos_of_lt hlt hp⟩
    · have hout := (hv.respects sb hsb).resolve_left hin
      exact ih hV' (hend ▸ h.gap (size_pos_of_mem_tiles hs hsb) hout)

/-! ### The summary -/

section Summary

variable {lb : Logbook}

/-- Each byte of the domain has one of the five statuses, so the five totals count
the bytes of the domain. -/
theorem countFrom_includesPos_eq (hv : lb.Valid) (a n : ℕ) :
    countFrom lb.domain.includesPos a n =
      countFrom (lb.isAt .nonTried) a n + countFrom (lb.isAt .nonTrimmed) a n +
        countFrom (lb.isAt .nonSplit) a n + countFrom (lb.isAt .badSector) a n +
        countFrom (lb.isAt .finished) a n := by
  induction n generalizing a with
  | zero => rfl
  | succ n ih =>
    have hbyte : (if lb.domain.includesPos a then 1 else 0) =
        (if lb.isAt .nonTried a then 1 else 0) + (if lb.isAt .nonTrimmed a then 1 else 0) +
          (if lb.isAt .nonSplit a then 1 else 0) + (if lb.isAt .badSector a then 1 else 0) +
          (if lb.isAt .finished a then 1 else 0) := by
      cases hp : lb.domain.includesPos a
      · simp [Logbook.isAt, hp]
      · obtain ⟨st, hst⟩ := Option.isSome_iff_exists.mp (hv.covered a hp)
        cases st <;> simp [Logbook.isAt, hp, hst]
    simp only [countFrom_succ, ih, hbyte]
    omega

/-- The error bytes are the bytes of the three error statuses. -/
theorem countFrom_errorAt_eq (a n : ℕ) :
    countFrom lb.errorAt a n = countFrom (lb.isAt .nonTrimmed) a n +
      countFrom (lb.isAt .nonSplit) a n + countFrom (lb.isAt .badSector) a n := by
  induction n generalizing a with
  | zero => rfl
  | succ n ih =>
    have hbyte : (if lb.errorAt a then 1 else 0) = (if lb.isAt .nonTrimmed a then 1 else 0) +
        (if lb.isAt .nonSplit a then 1 else 0) + (if lb.isAt .badSector a then 1 else 0) := by
      rcases hst : statusAt lb.sblocks a with _ | st
      · simp [Logbook.errorAt, Logbook.isAt, hst]
      · cases lb.domain.includesPos a <;> cases st <;>
          simp [Logbook.errorAt, Logbook.isAt, hst, Status.isError]
    simp only [countFrom_succ, ih, hbyte]
    omega

/-- The bytes of ordered blocks that lie in `[a, a + n)` number the sum of their
sizes. -/
theorem countFrom_any_includesPos {l : List Block} (hl : l.Chain' fun x y => x.pos + x.size ≤ y.pos)
    {a n : ℕ} (hin : ∀ b ∈ l, a ≤ b.pos ∧ b.pos + b.size ≤ a + n) :
    countFrom (fun p => l.any (·.includesPos p)) a n = sizeSum l := by
  induction l with
  | nil => exact countFrom_eq_zero fun _ _ _ => rfl
  | cons b rest ih =>
    have : IsTrans Block fun x y => x.pos + x.size ≤ y.pos := ⟨fun _ _ _ h1 h2 => by omega⟩
    have hafter := (List.pairwise_cons.mp (List.chain'_iff_pairwise.mp hl)).1
    have hb := hin b (List.mem_cons_self _ _)
    have hdisj : ∀ p, ¬(b.includesPos p = true ∧ rest.any (·.includesPos p) = true) := by
      rintro p ⟨h1, h2⟩
      obtain ⟨x, hx, h2⟩ := List.any_eq_true.mp h2
      have := hafter x hx
      simp only [Block.includesPos_iff] at h1 h2
      omega
    have hself : countFrom b.includesPos a n = b.size := by
      have h1 : countFrom b.includesPos a (b.pos - a) = 0 := countFrom_eq_zero fun p _ h =>
        Bool.eq_false_iff.mpr fun hp => by rw [Block.includesPos_iff] at hp; omega
      have h2 : countFrom b.includesPos (a + (b.pos - a)) b.size = b.size :=
        countFrom_eq_self fun p h h' => (Block.includesPos_iff _ _).mpr ⟨by omega, by omega⟩
      have h3 : countFrom b.includesPos (a + (b.pos - a + b.size)) (a + n - (b.pos + b.size)) = 0 :=
        countFrom_eq_zero fun p h _ => Bool.eq_false_iff.mpr fun hp => by
          rw [Block.includesPos_iff] at hp; omega
      rw [show n = b.pos - a + b.size + (a + n - (b.pos + b.size)) by omega, countFrom_add,
        countFrom_add, h1, h2, h3]
      omega
    simp only [List.any_cons]
    rw [countFrom_or hdisj, hself, ih hl.tail fun x hx => hin x (List.mem_cons_of_mem _ hx)]
    rfl

/-- `domain.in_size()` is the number of bytes of the domain. -/
theorem Logbook.countBytes_includesPos (hv : lb.Valid) :
    lb.countBytes lb.domain.includesPos = lb.domain.inSize :=
  countFrom_any_includesPos hv.domain.ordered fun _ hb => ⟨Nat.zero_le _, by
    rw [Nat.zero_add]; exact hv.domain.end_le_endPos hb⟩

/-- Every byte of the domain lies below `LLONG_MAX` when every sblock ends by it. -/
theorem Logbook.lt_of_includesPos (hv : lb.Valid)
    (hfit : ∀ sb ∈ lb.sblocks, ((sb.pos + sb.size : ℕ) : ℤ) ≤ llongMax) {p : ℕ}
    (hp : lb.domain.includesPos p = true) : (p : ℤ) < llongMax := by
  obtain ⟨sb, hsb, -, h2⟩ := exists_mem_of_statusAt_isSome (hv.covered p hp)
  have := hfit sb hsb
  omega

/-- No byte of a valid domain lies at or past its end. -/
theorem Domain.Valid.not_includesPos_of_endPos_le {d : Domain} (hd : d.Valid) {p : ℕ}
    (hp : d.endPos ≤ p) : d.includesPos p = false :=
  Bool.eq_false_iff.mpr fun hin => by
    obtain ⟨db, hdb, -, h2⟩ := (Domain.includesPos_iff _ _).mp hin
    have := hd.end_le_endPos hdb
    omega

/-- The five totals of a valid logbook add up to `domain.in_size()`. -/
theorem Logbook.countBytes_isAt_sum (hv : lb.Valid) :
    lb.countBytes (lb.isAt .nonTried) + lb.countBytes (lb.isAt .nonTrimmed) +
      lb.countBytes (lb.isAt .nonSplit) + lb.countBytes (lb.isAt .badSector) +
      lb.countBytes (lb.isAt .finished) = lb.domain.inSize := by
  rw [← Logbook.countBytes_includesPos hv]
  exact (countFrom_includesPos_eq hv 0 _).symm

/-- A valid logbook whose sblocks end by `LLONG_MAX` has at most `LLONG_MAX` bytes in
its domain. -/
theorem Logbook.inSize_le_llongMax (hv : lb.Valid)
    (hfit : ∀ sb ∈ lb.sblocks, ((sb.pos + sb.size : ℕ) : ℤ) ≤ llongMax) :
    (lb.domain.inSize : ℤ) ≤ llongMax := by
  have hlt : ∀ p, (9223372036854775807 : ℕ) ≤ p → lb.domain.includesPos p = false :=
    fun p hp => Bool.eq_false_iff.mpr fun hin => by
      have := Logbook.lt_of_includesPos hv hfit hin
      unfold llongMax at this
      omega
  have := countFrom_le lb.domain.includesPos 0 9223372036854775807
  rw [← countFrom_stable (fun p hp => hv.domain.not_includesPos_of_endPos_le hp) hlt,
    ← Logbook.countBytes, Logbook.countBytes_includesPos hv] at this
  unfold llongMax
  omega

/-- In a domain whose blocks never touch, two blocks lie one clear of the other. -/
theorem separated_of_chain {l : List Block} (h : l.Chain' fun x y => x.pos + x.size < y.pos)
    {x y : Block} (hx : x ∈ l) (hy : y ∈ l) (hxy : x ≠ y) :
    x.pos + x.size < y.pos ∨ y.pos + y.size < x.pos := by
  have : IsTrans Block fun x y => x.pos + x.size < y.pos := ⟨fun _ _ _ h1 h2 => by omega⟩
  have hp := (List.chain'_iff_pairwise.mp h).imp
    (S := fun x y : Block => x.pos + x.size < y.pos ∨ y.pos + y.size < x.pos) Or.inl
  exact hp.forall (fun _ _ h => h.symm) hx hy hxy

/-- In a domain whose blocks never touch, a byte of the domain lies strictly inside
its block exactly when the byte before it is a byte of the domain. -/
theorem Domain.inner_eq_follows {d : Domain}
    (hsep : d.blocks.Chain' fun x y => x.pos + x.size < y.pos) {p : ℕ}
    (hp : d.includesPos p = true) :
    d.blocks.any (fun db => db.pos < p && p < db.pos + db.size) =
      (decide (0 < p) && d.includesPos (p - 1)) := by
  obtain ⟨db, hdb, h1, h2⟩ := (Domain.includesPos_iff _ _).mp hp
  apply Bool.eq_iff_iff.mpr
  simp only [List.any_eq_true, Bool.and_eq_true, decide_eq_true_eq, Domain.includesPos_iff]
  constructor
  · rintro ⟨x, hx, h3, h4⟩
    exact ⟨by omega, x, hx, by omega, by omega⟩
  · rintro ⟨h0, x, hx, h3, h4⟩
    by_cases hxd : x = db
    · subst hxd
      exact ⟨x, hx, by omega, h2⟩
    · rcases separated_of_chain hsep hx hdb hxd with h | h <;> omega

/-- In a domain whose blocks never touch, the areas in the domain's byte order are
the areas inside each block. -/
theorem Logbook.blockAreaStart_eq
    (hsep : lb.domain.blocks.Chain' fun x y => x.pos + x.size < y.pos) (st : Status) (p : ℕ) :
    lb.blockAreaStart st p = lb.areaStart st p := by
  unfold Logbook.blockAreaStart Logbook.areaStart
  cases hp : lb.isAt st p
  · rfl
  · have hin : lb.domain.includesPos p = true := by
      simp only [Logbook.isAt, Bool.and_eq_true] at hp
      exact hp.1
    rw [Domain.inner_eq_follows hsep hin, Logbook.isAt]
    cases decide (0 < p) <;> cases lb.domain.includesPos (p - 1) <;> rfl

end Summary

/-- On a valid logbook with a nonempty domain whose sblocks end by `LLONG_MAX`,
`do_show_status` passes the exit, runs its loop and the sum `errsize` without
overflow, and its variables count the bytes of the whole domain (`ShowInv` at the
end of the loop). -/
theorem doShowStatus_counts {lb : Logbook} (hv : lb.Valid) (hne : lb.domain.blocks ≠ [])
    (hfit : ∀ sb ∈ lb.sblocks, ((sb.pos + sb.size : ℕ) : ℤ) ≤ llongMax) :
    ∃ c, doShowStatus lb = some (.ok (c, c.size .nonTrimmed + c.size .nonSplit + c.size .badSector)) ∧
      (∀ st, c.size st = lb.countBytes (lb.isAt st)) ∧
      (∀ st, c.areas st = lb.countBytes (lb.areaStart st)) ∧
      c.errors = lb.countBytes lb.errorStart := by
  obtain ⟨s, hs⟩ := hv.tiles
  have h0 : ShowInv lb s .initial := ShowInv.start fun p hp => Bool.eq_false_iff.mpr fun hin => by
    simpa [statusAt_eq_none_of_tiles hs (Or.inl hp)] using hv.covered p hin
  obtain ⟨c, t, hc, hinv, hout⟩ := showStatusLoop_spec hv hs hfit (List.nil_append _) h0
  -- the counts below `t` are the counts over the whole domain
  have hall : ∀ P : ℕ → Bool, (∀ p, lb.domain.includesPos p = false → P p = false) →
      countFrom P 0 t = lb.countBytes P := fun P hP =>
    countFrom_stable (fun p hp => hP p (hout p hp))
      (fun p hp => hP p (hv.domain.not_includesPos_of_endPos_le hp))
  have hsize : ∀ st, c.size st = lb.countBytes (lb.isAt st) := fun st =>
    (hinv.size st).trans (hall _ fun p hp => (Logbook.counts_of_not_includesPos hp st).1)
  -- `errsize` is part of the five totals, which add up to `in_size()`
  have hsum := Logbook.countBytes_isAt_sum hv
  have hfits := Logbook.inSize_le_llongMax hv hfit
  simp only [← hsize] at hsum
  refine ⟨c, ?_, hsize, fun st => ?_, ?_⟩
  · rw [doShowStatus, if_neg (Nat.pos_iff_ne_zero.mp (hv.domain.size_pos hne)), hc,
      Option.some_bind, if_neg (by omega)]
  · exact (hinv.areas st).trans (hall _ fun p hp => (Logbook.counts_of_not_includesPos hp st).2.2.1)
  · exact hinv.errors.trans (hall _ fun p hp => (Logbook.counts_of_not_includesPos hp .nonTried).2.2.2)

/-- For every valid logbook with a nonempty domain whose blocks never touch and whose
sblocks end by `LLONG_MAX`, `do_show_status` runs its loop and the sum `errsize`
without overflow. Each total `size_<status>` is the number of bytes of the domain with
that status, and the five totals add up to `domain.in_size()`, which fits a
`long long`; `errsize` is the number of bytes of the domain with an error status.
`areas_<status>` is the number of maximal runs of that status in the domain's byte
order, a run being broken by a gap of the domain or by a byte of another status, which
is the number of maximal runs inside each domain block. `errors` is the number of
maximal runs of bytes of the domain with an error status, a run being broken by a gap
of the domain or by a non-tried or finished byte. -/
theorem doShowStatus_spec {lb : Logbook} (hv : lb.Valid) (hne : lb.domain.blocks ≠ [])
    (hsep : lb.domain.blocks.Chain' fun x y => x.pos + x.size < y.pos)
    (hfit : ∀ sb ∈ lb.sblocks, ((sb.pos + sb.size : ℕ) : ℤ) ≤ llongMax) :
    ∃ c errsize, doShowStatus lb = some (.ok (c, errsize)) ∧
      (∀ st, c.size st = lb.countBytes (lb.isAt st)) ∧
      c.size .nonTried + c.size .nonTrimmed + c.size .nonSplit + c.size .badSector +
        c.size .finished = lb.domain.inSize ∧ (lb.domain.inSize : ℤ) ≤ llongMax ∧
      errsize = lb.countBytes lb.errorAt ∧
      (∀ st, c.areas st = lb.countBytes (lb.areaStart st)) ∧
      (∀ st, c.areas st = lb.countBytes (lb.blockAreaStart st)) ∧
      c.errors = lb.countBytes lb.errorStart := by
  obtain ⟨c, hc, hsize, hareas, herrors⟩ := doShowStatus_counts hv hne hfit
  have hsum : c.size .nonTried + c.size .nonTrimmed + c.size .nonSplit + c.size .badSector +
      c.size .finished = lb.domain.inSize := by
    simp only [hsize]
    exact Logbook.countBytes_isAt_sum hv
  have herrsize : c.size .nonTrimmed + c.size .nonSplit + c.size .badSector =
      lb.countBytes lb.errorAt := by
    simp only [hsize, Logbook.countBytes, countFrom_errorAt_eq]
  refine ⟨c, _, hc, hsize, hsum, Logbook.inSize_le_llongMax hv hfit, herrsize, hareas,
    fun st => ?_, herrors⟩
  rw [hareas st]
  exact congrArg _ (funext (Logbook.blockAreaStart_eq hsep st)).symm

theorem doShowStatus_spec_gap :
    let lb : Logbook := ⟨[⟨⟨0, 10⟩, .badSector⟩, ⟨⟨10, 10⟩, .nonTried⟩, ⟨⟨20, 10⟩, .badSector⟩],
      ⟨[⟨0, 10⟩, ⟨20, 10⟩]⟩⟩
    lb.Valid ∧ lb.domain.blocks ≠ [] ∧ (lb.domain.blocks.Chain' fun x y => x.pos + x.size < y.pos) ∧
      (∀ sb ∈ lb.sblocks, ((sb.pos + sb.size : ℕ) : ℤ) ≤ llongMax) ∧
      ∃ c errsize, doShowStatus lb = some (.ok (c, errsize)) ∧
        (∀ st, c.size st = lb.countBytes (lb.isAt st)) ∧
        c.size .nonTried + c.size .nonTrimmed + c.size .nonSplit + c.size .badSector +
          c.size .finished = lb.domain.inSize ∧ (lb.domain.inSize : ℤ) ≤ llongMax ∧
        errsize = lb.countBytes lb.errorAt ∧
        (∀ st, c.areas st = lb.countBytes (lb.areaStart st)) ∧
        (∀ st, c.areas st = lb.countBytes (lb.blockAreaStart st)) ∧
        c.errors = lb.countBytes lb.errorStart := by
  intro lb
  have hv : lb.Valid := .of_check (by decide)
  have hsep : lb.domain.blocks.Chain' fun x y => x.pos + x.size < y.pos :=
    List.Chain.cons (by decide) .nil
  have hfit : ∀ sb ∈ lb.sblocks, ((sb.pos + sb.size : ℕ) : ℤ) ≤ llongMax := by decide
  exact ⟨hv, by decide, hsep, hfit, doShowStatus_spec hv (by decide) hsep hfit⟩

/-- The gap of the domain between the two bad-sector blocks breaks the error run:
two errors, and 20 bytes of error size. -/
example :
    doShowStatus ⟨[⟨⟨0, 10⟩, .badSector⟩, ⟨⟨10, 10⟩, .nonTried⟩, ⟨⟨20, 10⟩, .badSector⟩],
      ⟨[⟨0, 10⟩, ⟨20, 10⟩]⟩⟩ matches some (.ok (⟨_, _, 2, _, _, _⟩, 20)) := by
  decide

/-! ### Agreement with `--done-status` -/

/-- Of two tests where the first implies the second, the first counts as many bytes as
the second exactly when no byte meets the second without the first. -/
theorem countFrom_eq_iff_of_imp {P Q : ℕ → Bool} (h : ∀ p, P p = true → Q p = true) (a n : ℕ) :
    countFrom P a n = countFrom Q a n ↔ ∀ p, a ≤ p → p < a + n → Q p = true → P p = true := by
  -- the bytes of `Q` are those of `P` and those of `Q` without `P`
  have hsplit : countFrom Q a n = countFrom P a n + countFrom (fun p => Q p && !P p) a n := by
    rw [← countFrom_or fun p ⟨hP, hQ⟩ => by simp [hP] at hQ]
    exact countFrom_congr fun p _ _ => by cases hP : P p <;> simp [hP, h p]
  rw [hsplit, show ∀ x y : ℕ, x = x + y ↔ y = 0 from fun x y => by omega, countFrom,
    List.countP_eq_zero]
  simp only [List.mem_range'_1, Bool.and_eq_true, Bool.not_eq_true', not_and, Bool.not_eq_false,
    and_imp]

/-- `--done-status` and `--show-status` agree: on a valid logbook with a nonempty domain
whose sblocks end by `LLONG_MAX`, `test_if_done` without deletion returns 0 exactly when
`do_show_status` finds that the finished bytes fill the domain,
`size_finished == domain.in_size()`. -/
theorem testIfDone_iff_showStatus {lb : Logbook} (hv : lb.Valid) (hne : lb.domain.blocks ≠ [])
    (hfit : ∀ sb ∈ lb.sblocks, ((sb.pos + sb.size : ℕ) : ℤ) ≤ llongMax) (removeOk : Bool) :
    ∃ c errsize, doShowStatus lb = some (.ok (c, errsize)) ∧
      ((testIfDone lb false removeOk).1 = 0 ↔ c.size .finished = lb.domain.inSize) := by
  obtain ⟨c, hshow, hsize, -⟩ := doShowStatus_counts hv hne hfit
  refine ⟨c, _, hshow, ?_⟩
  -- `test_if_done` answers whether every byte of the domain is finished
  have hdone : (testIfDone lb false removeOk).1 = 0 ↔ lb.AllFinished := by
    have hsz := hv.domain.size_pos hne
    simp only [testIfDone, if_neg (show lb.domain.size ≠ 0 by omega), Bool.not_false, if_true]
    split_ifs with hall
    · exact iff_of_true rfl ((scan_all_finished_iff hv).mp hall)
    · exact iff_of_false (by decide) fun h => hall ((scan_all_finished_iff hv).mpr h)
  -- and the finished total reaches `in_size()` exactly then
  rw [hdone, hsize, ← Logbook.countBytes_includesPos hv, Logbook.countBytes, Logbook.countBytes,
    countFrom_eq_iff_of_imp fun p hp => (Bool.and_eq_true _ _ ▸ hp).1]
  constructor
  · intro hall p _ _ hp
    simp [Logbook.isAt, hp, hall p hp]
  · intro h p hp
    have hlt : p < lb.domain.endPos := Nat.lt_of_not_le fun hle => by
      simp [hv.domain.not_includesPos_of_endPos_le hle] at hp
    simpa [Logbook.isAt, hp] using h p (Nat.zero_le p) (by omega) hp

/-- A logbook whose domain is finished, with a non-tried sblock past the domain. -/
theorem testIfDone_iff_showStatus_finished :
    let lb : Logbook := ⟨[⟨⟨0, 10⟩, .finished⟩, ⟨⟨10, 5⟩, .nonTried⟩], ⟨[⟨0, 10⟩]⟩⟩
    lb.Valid ∧ lb.domain.blocks ≠ [] ∧ (∀ sb ∈ lb.sblocks, ((sb.pos + sb.size : ℕ) : ℤ) ≤ llongMax) ∧
      ∃ c errsize, doShowStatus lb = some (.ok (c, errsize)) ∧
        ((testIfDone lb false true).1 = 0 ↔ c.size .finished = lb.domain.inSize) := by
  intro lb
  have hv : lb.Valid := .of_check (by decide)
  have hfit : ∀ sb ∈ lb.sblocks, ((sb.pos + sb.size : ℕ) : ℤ) ≤ llongMax := by decide
  exact ⟨hv, by decide, hfit, testIfDone_iff_showStatus hv (by decide) hfit true⟩

end Ddrescue
