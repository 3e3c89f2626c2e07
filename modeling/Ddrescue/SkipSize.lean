import Mathlib.Data.List.Basic

/-!
# The skip sizes of ddrescue's `-K` option

`-K`/`--skip-size=[<initial>][,<max>]` calls `parse_skipbs` (src/main.cc) with the
sector size `hardbs` of that moment. It looks for the first comma of its argument.
Unless the argument starts with one, `getnum( ptr, hardbs, 0, max_max_skipbs, true )`
reads the initial skip size from the text before it; after a comma,
`getnum( ptr2 + 1, hardbs, default_skipbs, max_max_skipbs )` reads the maximum. Then
main exits when the initial size is positive but below `default_skipbs`, or larger
than the maximum, whichever part of the argument set them.

`getnum` and the constants of `Rb_options` are not in src/: the model takes them as
parameters and assumes of `getnum` only that a value it returns lies within the
bounds it is given (`GetnumBounded`). Then every `-K` that main accepts leaves skip
sizes a rescue can use (`SkipSizes.Valid`), and over every command line the sizes
main passes on are valid when the defaults are (`skipRun_valid`).
-/

namespace Ddrescue

/-- The two skip sizes of `Rb_options` that `parse_skipbs` sets. -/
structure SkipSizes where
  /-- `skipbs`: the initial skip size, 0 for no skipping. -/
  skipbs : ℤ
  /-- `max_skipbs`. -/
  maxSkipbs : ℤ
  deriving DecidableEq, Repr

/-- `getnum( ptr, hardbs, min, max, comma )` keeps to its bounds: a value it returns,
instead of ending main, lies in `[min, max]`. -/
def GetnumBounded (getnum : List Char → ℤ → ℤ → ℤ → Bool → Option ℤ) : Prop :=
  ∀ ptr hardbs lo hi comma v, getnum ptr hardbs lo hi comma = some v → lo ≤ v ∧ v ≤ hi

/-- `parse_skipbs( ptr, rb_opts, hardbs )`: the skip sizes after it, or how main ends:
`none` inside `getnum`, whose messages are not in src/, and otherwise the message
`parse_skipbs` shows. `ptr2 = std::strchr( ptr, ',' )` is the argument from its first
comma on, empty when it has none; it is the whole argument when that starts with a
comma. -/
def parseSkipbs (getnum : List Char → ℤ → ℤ → ℤ → Bool → Option ℤ)
    (defaultSkipbs maxMaxSkipbs : ℤ) (ptr : List Char) (hardbs : ℤ) (opts : SkipSizes) :
    Except (Option String) SkipSizes :=
  let ptr2 := ptr.dropWhile (· ≠ ',')
  let skipbs := if ptr2 = [] ∨ ptr2 ≠ ptr then getnum ptr hardbs 0 maxMaxSkipbs true
    else some opts.skipbs
  let maxSkipbs := if ptr2 = [] then some opts.maxSkipbs
    else getnum ptr2.tail hardbs defaultSkipbs maxMaxSkipbs false
  match skipbs, maxSkipbs with
  | some skipbs, some maxSkipbs =>
    if 0 < skipbs ∧ skipbs < defaultSkipbs then
      .error (some "Minimum initial skip size is 64KiB.")
    else if maxSkipbs < skipbs then
      .error (some "\x27initial skip size\x27 is larger than \x27max skip size\x27.")
    else .ok ⟨skipbs, maxSkipbs⟩
  | _, _ => .error none

/-- The `-K` options of a command line in order, each with the sector size in force
where the option loop of `main` reaches it. -/
def skipRun (getnum : List Char → ℤ → ℤ → ℤ → Bool → Option ℤ) (defaultSkipbs maxMaxSkipbs : ℤ)
    (args : List (List Char × ℤ)) (opts : SkipSizes) : Except (Option String) SkipSizes :=
  args.foldlM (fun o arg => parseSkipbs getnum defaultSkipbs maxMaxSkipbs arg.1 arg.2 o) opts

/-- Skip sizes a rescue can use: the initial one is 0 (no skipping) or at least
`default_skipbs`, and at most the maximum, itself at most `max_max_skipbs`. -/
structure SkipSizes.Valid (defaultSkipbs maxMaxSkipbs : ℤ) (o : SkipSizes) : Prop where
  initial : o.skipbs = 0 ∨ defaultSkipbs ≤ o.skipbs
  le_max : o.skipbs ≤ o.maxSkipbs
  max_le : o.maxSkipbs ≤ maxMaxSkipbs

section Step

variable {getnum : List Char → ℤ → ℤ → ℤ → Bool → Option ℤ} {d m : ℤ}

/-- A size `parse_skipbs` reads is within the bounds it gives `getnum`; a size it does
not read keeps its old value. -/
theorem GetnumBounded.read_or_keep (hget : GetnumBounded getnum) {c : Prop} [Decidable c]
    {ptr : List Char} {hardbs lo hi old v : ℤ} {comma : Bool}
    (h : (if c then getnum ptr hardbs lo hi comma else some old) = some v) :
    lo ≤ v ∧ v ≤ hi ∨ v = old := by
  split_ifs at h
  · exact .inl (hget _ _ _ _ _ _ h)
  · exact .inr (Option.some.inj h).symm

theorem GetnumBounded.keep_or_read (hget : GetnumBounded getnum) {c : Prop} [Decidable c]
    {ptr : List Char} {hardbs lo hi old v : ℤ} {comma : Bool}
    (h : (if c then some old else getnum ptr hardbs lo hi comma) = some v) :
    lo ≤ v ∧ v ≤ hi ∨ v = old :=
  hget.read_or_keep (c := ¬c) (by rwa [ite_not])

/-- Every `-K` that main accepts keeps the skip sizes valid: the two checks of
`parse_skipbs` hold of the sizes it leaves, whichever part of the argument set them. -/
theorem SkipSizes.Valid.parseSkipbs (hget : GetnumBounded getnum) {o o' : SkipSizes}
    (hv : o.Valid d m) {ptr : List Char} {hardbs : ℤ}
    (h : parseSkipbs getnum d m ptr hardbs o = .ok o') : o'.Valid d m := by
  simp only [Ddrescue.parseSkipbs] at h
  split at h
  · rename_i s mx hs hmx
    have hs' := hget.read_or_keep hs
    have hmx' := hget.keep_or_read hmx
    split_ifs at h with h1 h2
    cases h
    have := hv.initial
    have := hv.max_le
    refine ⟨?_, ?_, ?_⟩ <;> dsimp only <;> omega
  · cases h

end Step

/-- Over every command line, the skip sizes main passes on to the rescue are valid
when the defaults of `Rb_options` are: each `-K` that main accepts keeps them so. -/
theorem skipRun_valid {getnum : List Char → ℤ → ℤ → ℤ → Bool → Option ℤ} {d m : ℤ}
    (hget : GetnumBounded getnum) :
    ∀ (args : List (List Char × ℤ)) {o o' : SkipSizes}, o.Valid d m →
      skipRun getnum d m args o = .ok o' → o'.Valid d m
  | [], _, _, hv, h => by
    cases h
    exact hv
  | arg :: rest, o, _, hv, h => by
    rw [skipRun, List.foldlM_cons] at h
    cases h1 : parseSkipbs getnum d m arg.1 arg.2 o with
    | error e =>
      rw [h1] at h
      cases h
    | ok o1 =>
      rw [h1] at h
      exact skipRun_valid hget rest (hv.parseSkipbs hget h1) h

/-- `-K 131072` and then `-K ,1048576`, from skip sizes of 64 KiB and 1 GiB, with a
`getnum` that reads the decimal digits at the start of its text. -/
theorem skipRun_valid_two_options :
    let getnum : List Char → ℤ → ℤ → ℤ → Bool → Option ℤ := fun ptr _ lo hi _ =>
      let n : ℤ := ((ptr.takeWhile Char.isDigit).foldl (fun a c => 10 * a + (c.toNat - 48)) 0 : ℕ)
      if lo ≤ n ∧ n ≤ hi then some n else none
    let args : List (List Char × ℤ) :=
      [(['1', '3', '1', '0', '7', '2'], 512), ([',', '1', '0', '4', '8', '5', '7', '6'], 512)]
    GetnumBounded getnum ∧ (⟨65536, 1073741824⟩ : SkipSizes).Valid 65536 1073741824 ∧
      skipRun getnum 65536 1073741824 args ⟨65536, 1073741824⟩ = .ok ⟨131072, 1048576⟩ ∧
      (⟨131072, 1048576⟩ : SkipSizes).Valid 65536 1073741824 := by
  intro getnum args
  have hget : GetnumBounded getnum := fun ptr _ lo hi _ v h => by
    simp only [getnum] at h
    split_ifs at h with hb
    cases h
    exact hb
  have hv : (⟨65536, 1073741824⟩ : SkipSizes).Valid 65536 1073741824 :=
    ⟨by decide, by decide, by decide⟩
  have hrun : skipRun getnum 65536 1073741824 args ⟨65536, 1073741824⟩ = .ok ⟨131072, 1048576⟩ := rfl
  exact ⟨hget, hv, hrun, skipRun_valid hget args hv hrun⟩

/- A later `-K ,65536` lowers the maximum below the initial size set before: refused. -/
example :
    skipRun (fun _ _ _ _ _ => some 65536) 65536 1073741824 [([',', '6', '5', '5', '3', '6'], 512)]
      ⟨131072, 1073741824⟩ =
      .error (some "\x27initial skip size\x27 is larger than \x27max skip size\x27.") := rfl

end Ddrescue
