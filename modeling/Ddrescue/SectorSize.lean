import Mathlib.Data.List.Basic

/-!
# The sector size chosen by ddrescue's command line

`main` of ddrescue reads its options in order. In the libdvdread build two of
them touch the sector size `hardbs`: `-b`/`--sector-size` and `--dvd`, through
the flag `hardbs_at_default`, which is meant to keep `--dvd` from overriding a
sector size the user gave. The first `-b` only clears that flag: its value is
never read. So a single `-b` leaves `hardbs` at its default, 512, or at 2048 if
`--dvd` came before it.

Over every command line the loop computes `sectorSizeSpec`: `--dvd` counts only
before the first `-b`, and the last `-b` after the first sets the size
(`sectorSizeOfOptions_eq_spec`). Every pass keeps `hardbs ≥ 1`, so the fallback
`if( hardbs < 1 )` after the loop never fires. The fix-up of the cluster size
that follows it (`clampCluster`) leaves a copy block of at least one sector whose
size in bytes fits in an `int`.
-/

namespace Ddrescue

/-- An option of ddrescue's command line, as far as the sector size goes. -/
inductive RescueOption
  /-- `-b`/`--sector-size`, with the number its argument denotes. -/
  | sectorSize (value : ℕ)
  /-- `--dvd`. -/
  | dvd
  /-- Any other option; none of them touches `hardbs`. -/
  | other
  deriving DecidableEq, Repr

/-- The variables of `main` the option loop threads for the sector size. -/
structure SectorState where
  /-- `hardbs`. -/
  hardbs : ℕ
  /-- `hardbs_at_default`. -/
  hardbsAtDefault : Bool
  deriving DecidableEq, Repr

/-- `default_hardbs`. -/
def defaultHardbs : ℕ := 512

/-- `getnum( ptr, 0, 1, max_hardbs )`: the value, or `none` when main exits
on a value out of `[1, max_hardbs]`. `maxHardbs` is `Rb_options::max_max_skipbs`. -/
def getnumHardbs (maxHardbs value : ℕ) : Option ℕ :=
  if 1 ≤ value ∧ value ≤ maxHardbs then some value else none

/-- One pass of the option loop of `main` (cases `'b'` and `opt_dvd`). -/
def optionStep (maxHardbs : ℕ) (st : SectorState) : RescueOption → Option SectorState
  | .sectorSize value =>
    if !st.hardbsAtDefault then
      (getnumHardbs maxHardbs value).map fun v => ⟨v, false⟩
    else some { st with hardbsAtDefault := false }
  | .dvd => some (if st.hardbsAtDefault then { st with hardbs := 2048 } else st)
  | .other => some st

/-- The sector size `main` passes on: the option loop from `hardbs = 512`,
`hardbs_at_default = true`, then `if( hardbs < 1 ) hardbs = default_hardbs`.
`none` when main exits during the loop. -/
def sectorSizeOfOptions (maxHardbs : ℕ) (opts : List RescueOption) : Option ℕ :=
  (opts.foldlM (optionStep maxHardbs) ⟨defaultHardbs, true⟩).map fun st =>
    if st.hardbs < 1 then defaultHardbs else st.hardbs

/-- Before the first `-b`, the loop only records `--dvd`. -/
theorem foldlM_optionStep_no_sectorSize (maxHardbs : ℕ) (opts : List RescueOption)
    (hno : ∀ v, RescueOption.sectorSize v ∉ opts) (h : ℕ) :
    opts.foldlM (optionStep maxHardbs) ⟨h, true⟩ =
      some ⟨if RescueOption.dvd ∈ opts then 2048 else h, true⟩ := by
  induction opts generalizing h with
  | nil => rfl
  | cons o rest ih =>
    have hrest : ∀ v, RescueOption.sectorSize v ∉ rest :=
      fun v hv => hno v (List.mem_cons_of_mem _ hv)
    cases o with
    | sectorSize v => exact absurd (List.mem_cons_self _ _) (hno v)
    | dvd =>
      simp only [List.foldlM_cons, optionStep, if_true, Option.bind_eq_bind, Option.some_bind]
      rw [ih hrest]
      simp
    | other =>
      simp only [List.foldlM_cons, optionStep, Option.bind_eq_bind, Option.some_bind]
      rw [ih hrest]
      simp

/-- A single `-b`, with or without `--dvd` before it, leaves the sector size
at what it was before: its value is never read. -/
theorem sectorSizeOfOptions_single (maxHardbs : ℕ) (pre post : List RescueOption) (value : ℕ)
    (hpre : ∀ v, RescueOption.sectorSize v ∉ pre) (hpost : ∀ v, RescueOption.sectorSize v ∉ post) :
    sectorSizeOfOptions maxHardbs (pre ++ RescueOption.sectorSize value :: post) =
      some (if RescueOption.dvd ∈ pre then 2048 else defaultHardbs) := by
  have hafter : ∀ st : SectorState, st.hardbsAtDefault = false →
      post.foldlM (optionStep maxHardbs) st = some st := by
    intro st hst
    induction post with
    | nil => rfl
    | cons o rest ih =>
      cases o with
      | sectorSize v => exact absurd (List.mem_cons_self _ _) (hpost v)
      | dvd =>
        simp only [List.foldlM_cons, optionStep, hst, Option.bind_eq_bind, Option.some_bind]
        exact ih fun v hv => hpost v (List.mem_cons_of_mem _ hv)
      | other =>
        simp only [List.foldlM_cons, optionStep, Option.bind_eq_bind, Option.some_bind]
        exact ih fun v hv => hpost v (List.mem_cons_of_mem _ hv)
  simp only [sectorSizeOfOptions, List.foldlM_append, foldlM_optionStep_no_sectorSize _ _ hpre,
    Option.bind_eq_bind, Option.some_bind, List.foldlM_cons, optionStep, Bool.not_true,
    Bool.false_eq_true, if_false]
  rw [hafter _ rfl]
  split <;> simp [defaultHardbs]

/-- Every pass of the loop keeps `hardbs ≥ 1`: `getnum` checks a `-b` value against
`[1, max_hardbs]`, and `--dvd` sets 2048. -/
theorem optionStep_hardbs_pos {maxHardbs : ℕ} {st st' : SectorState} {o : RescueOption}
    (h : optionStep maxHardbs st o = some st') (hst : 1 ≤ st.hardbs) : 1 ≤ st'.hardbs := by
  cases o with
  | sectorSize v =>
    simp only [optionStep] at h
    split at h
    · obtain ⟨v', hv', rfl⟩ := Option.map_eq_some'.mp h
      simp only [getnumHardbs, Option.ite_none_right_eq_some, Option.some.injEq] at hv'
      obtain ⟨⟨hv1, -⟩, rfl⟩ := hv'
      exact hv1
    · cases h
      exact hst
  | dvd =>
    cases h
    split <;> simp [hst]
  | other =>
    cases h
    exact hst

theorem foldlM_optionStep_hardbs_pos (maxHardbs : ℕ) :
    ∀ (l : List RescueOption) {st st' : SectorState},
      l.foldlM (optionStep maxHardbs) st = some st' → 1 ≤ st.hardbs → 1 ≤ st'.hardbs
  | [], _, _, h, hst => by
    cases h
    exact hst
  | _ :: rest, _, _, h, hst => by
    obtain ⟨_, h1, h2⟩ := Option.bind_eq_some.mp h
    exact foldlM_optionStep_hardbs_pos maxHardbs rest h2 (optionStep_hardbs_pos h1 hst)

/-- The value of a `-b` option; `none` for the others. -/
def RescueOption.sectorSizeValue : RescueOption → Option ℕ
  | .sectorSize value => some value
  | _ => none

/-- Every option but `-b`. -/
def RescueOption.notSectorSize (o : RescueOption) : Bool := o.sectorSizeValue.isNone

/-- What the option loop is meant to do to the sector size, said over the whole command
line: `--dvd` counts only before the first `-b`, which sets nothing; each later `-b` sets
the size, so the last one wins, and one out of `[1, maxHardbs]` ends main. -/
def sectorSizeSpec (maxHardbs : ℕ) (opts : List RescueOption) : Option ℕ :=
  let start := if .dvd ∈ opts.takeWhile RescueOption.notSectorSize then 2048 else defaultHardbs
  match opts.filterMap RescueOption.sectorSizeValue with
  | [] => some start
  | _ :: later =>
    if later.all fun v => 1 ≤ v ∧ v ≤ maxHardbs then some (later.getLastD start) else none

/-- After the first `-b`, each `-b` sets the sector size and `--dvd` does nothing. -/
theorem foldlM_optionStep_later (maxHardbs : ℕ) (l : List RescueOption) (h : ℕ) :
    l.foldlM (optionStep maxHardbs) ⟨h, false⟩ =
      let vs := l.filterMap RescueOption.sectorSizeValue
      if vs.all fun v => 1 ≤ v ∧ v ≤ maxHardbs then some ⟨vs.getLastD h, false⟩ else none := by
  induction l generalizing h with
  | nil => rfl
  | cons o rest ih =>
    cases o with
    | sectorSize v =>
      simp only [List.foldlM_cons, optionStep, Bool.not_false, if_true, getnumHardbs,
        RescueOption.sectorSizeValue, List.filterMap_cons, List.all_cons, List.getLastD_cons]
      by_cases hv : 1 ≤ v ∧ v ≤ maxHardbs
      · simp only [if_pos hv, Option.map_some', Option.bind_eq_bind, Option.some_bind, ih,
          decide_eq_true hv, Bool.true_and]
      · simp [hv]
    | dvd => simp [optionStep, ih, RescueOption.sectorSizeValue]
    | other => simp [optionStep, ih, RescueOption.sectorSizeValue]

/-- Before the first `-b`, the loop only records `--dvd`; the first `-b` ends that phase
without reading its value. -/
theorem foldlM_optionStep_first (maxHardbs : ℕ) (l : List RescueOption) (h : ℕ) :
    l.foldlM (optionStep maxHardbs) ⟨h, true⟩ =
      let start := if .dvd ∈ l.takeWhile RescueOption.notSectorSize then 2048 else h
      match l.filterMap RescueOption.sectorSizeValue with
      | [] => some ⟨start, true⟩
      | _ :: later =>
        if later.all fun v => 1 ≤ v ∧ v ≤ maxHardbs then some ⟨later.getLastD start, false⟩
        else none := by
  induction l generalizing h with
  | nil => rfl
  | cons o rest ih =>
    cases o with
    | sectorSize v =>
      simp [optionStep, foldlM_optionStep_later, RescueOption.notSectorSize,
        RescueOption.sectorSizeValue]
    | dvd => simp [optionStep, ih, RescueOption.notSectorSize, RescueOption.sectorSizeValue]
    | other => simp [optionStep, ih, RescueOption.notSectorSize, RescueOption.sectorSizeValue]

/-- Over every command line, the sector size main passes on is the one `sectorSizeSpec`
gives, and main exits exactly when a `-b` after the first is out of range. -/
theorem sectorSizeOfOptions_eq_spec (maxHardbs : ℕ) (opts : List RescueOption) :
    sectorSizeOfOptions maxHardbs opts = sectorSizeSpec maxHardbs opts := by
  -- the fallback for `hardbs < 1` never fires
  have hmap : sectorSizeOfOptions maxHardbs opts =
      (opts.foldlM (optionStep maxHardbs) ⟨defaultHardbs, true⟩).map SectorState.hardbs := by
    unfold sectorSizeOfOptions
    cases h : opts.foldlM (optionStep maxHardbs) ⟨defaultHardbs, true⟩ with
    | none => rfl
    | some st =>
      have := foldlM_optionStep_hardbs_pos maxHardbs opts h (by decide)
      simp only [Option.map_some', if_neg (Nat.not_lt.mpr this)]
  rw [hmap, foldlM_optionStep_first, sectorSizeSpec]
  dsimp only
  cases opts.filterMap RescueOption.sectorSizeValue with
  | nil => rfl
  | cons _ later => exact apply_ite (Option.map SectorState.hardbs) _ _ _

/-- Two `-b` options: the second sets the sector size. -/
example : sectorSizeSpec 65536 [.sectorSize 4096, .dvd, .sectorSize 1024] = some 1024 := by
  decide

/-- `INT_MAX`. -/
def intMax : ℤ := 2147483647

/-- `cluster_bytes`: the default copy block, 64 KiB. -/
def clusterBytes : ℤ := 65536

/-- The fix-up of `cluster` after the option loop of `main`, for `hardbs ≥ 1`, where C's
division of positive `int`s is the floor:
`if( cluster >= INT_MAX / hardbs ) cluster = ( INT_MAX / hardbs ) - 1;
if( cluster < 1 ) cluster = cluster_bytes / hardbs; if( cluster < 1 ) cluster = 1;`.
`cluster` is 0 unless `-c` gave it a value in `[1, INT_MAX]`. -/
def clampCluster (hardbs cluster : ℤ) : ℤ :=
  let cluster := if cluster ≥ intMax / hardbs then intMax / hardbs - 1 else cluster
  let cluster := if cluster < 1 then clusterBytes / hardbs else cluster
  if cluster < 1 then 1 else cluster

/-- For every sector size in `[1, INT_MAX]` and every `cluster`, the fix-up leaves a copy
block of at least one sector whose size in bytes, `cluster * hardbs`, fits in an `int`; a
`-c` value below `INT_MAX / hardbs` is kept, and without `-c` a sector size up to 64 KiB
gives a copy block of 64 KiB. -/
theorem clampCluster_spec {hardbs : ℤ} (hb : 1 ≤ hardbs) (hbmax : hardbs ≤ intMax) (cluster : ℤ) :
    1 ≤ clampCluster hardbs cluster ∧ clampCluster hardbs cluster * hardbs ≤ intMax ∧
      (1 ≤ cluster → cluster < intMax / hardbs → clampCluster hardbs cluster = cluster) ∧
      (hardbs ≤ clusterBytes → clampCluster hardbs 0 = clusterBytes / hardbs) := by
  have hq : intMax / hardbs * hardbs ≤ intMax := Int.ediv_mul_le _ (by omega)
  have hq1 : 1 ≤ intMax / hardbs := Int.le_ediv_of_mul_le (by omega) (by omega)
  have hB : clusterBytes / hardbs * hardbs ≤ clusterBytes := Int.ediv_mul_le _ (by omega)
  have hBmax : clusterBytes ≤ intMax := by decide
  -- a value below `INT_MAX / hardbs`, times `hardbs`, fits
  have hbelow : ∀ c, c ≤ intMax / hardbs - 1 → c * hardbs ≤ intMax := fun c hc =>
    calc c * hardbs ≤ intMax / hardbs * hardbs := Int.mul_le_mul_of_nonneg_right (by omega) (by omega)
      _ ≤ intMax := hq
  have hB1 : hardbs ≤ clusterBytes → 1 ≤ clusterBytes / hardbs := fun hbB =>
    Int.le_ediv_of_mul_le (by omega) (by omega)
  refine ⟨?_, ?_, fun h1 h2 => ?_, fun hbB => ?_⟩ <;> simp only [clampCluster]
  · split_ifs <;> omega
  · split_ifs <;> first
      | omega
      | exact hbelow _ (by omega)
  · split_ifs <;> omega
  · have := hB1 hbB
    split_ifs <;> omega

/-- The fix-up for the default sector size and no `-c`: 128 sectors. -/
theorem clampCluster_spec_default :
    (1 : ℤ) ≤ 512 ∧ (512 : ℤ) ≤ intMax ∧ 1 ≤ clampCluster 512 0 ∧ clampCluster 512 0 * 512 ≤ intMax ∧
      (1 ≤ (0 : ℤ) → (0 : ℤ) < intMax / 512 → clampCluster 512 0 = 0) ∧
      ((512 : ℤ) ≤ clusterBytes → clampCluster 512 0 = clusterBytes / 512) :=
  have hb : (1 : ℤ) ≤ 512 := by decide
  have hbmax : (512 : ℤ) ≤ intMax := by decide
  ⟨hb, hbmax, clampCluster_spec hb hbmax 0⟩

example : clampCluster 512 0 = 128 := by decide

/-- `ddrescue -b 4096 infile outfile`: the sector size stays 512. -/
theorem sectorSizeOfOptions_b_4096 (maxHardbs : ℕ) :
    sectorSizeOfOptions maxHardbs [.sectorSize 4096] = some 512 :=
  sectorSizeOfOptions_single maxHardbs [] [] 4096 (by simp) (by simp)

end Ddrescue
