import Mathlib.Data.List.Basic

/-!
# `check_files`: the files ddrescue is given

Before a rescue, `main` calls `check_files` (src/main.cc) on the names of the
input file, the output file and the optional mapfile. `check_identical` refuses
two roles on one file: the same name, or two names that `stat` finds with the
same `st_ino` and `st_dev`. Then an existing mapfile must be a regular file, and
so must an existing output file unless it is written plainly: `--force` given,
and no `-x` size to extend to, no `--preallocate`, no `--sparse` (or the run is
`--generate-mode`, which does not write it).

The file system is what `stat` answers for each name. `check_files` accepts
exactly when those conditions hold (`checkFiles_ok_iff`), and a refusal shows
the message of the first one that fails.
-/

namespace Ddrescue

/-- What `stat` reports of an existing file, as far as main.cc reads it. -/
structure FileStat where
  /-- `st_dev`. -/
  dev : ℕ
  /-- `st_ino`. -/
  ino : ℕ
  /-- `S_ISREG( st_mode )`. -/
  regular : Bool
  deriving DecidableEq, Repr

/-- Two successful `stat`s found one file: the same `st_ino` and `st_dev`. -/
def sameInode : Option FileStat → Option FileStat → Bool
  | some a, some b => a.ino == b.ino && a.dev == b.dev
  | _, _ => false

/-- `check_identical( iname, oname, mapname )`: the message it shows when it
returns true, `none` when it returns false. `fs` is what `stat` answers for
each name; `istat` and `ostat` stand for `iexists` and `oexists` with the stat
buffers, and are `none` when the names are equal and `stat` is not called. -/
def checkIdentical (fs : String → Option FileStat) (iname oname : String)
    (mapname : Option String) : Option String :=
  let istat := if iname = oname then none else fs iname
  let ostat := if iname = oname then none else fs oname
  if iname = oname || sameInode istat ostat then some "Infile and outfile are the same."
  else match mapname with
    | none => none
    | some mapname =>
      let mapstat := if iname = mapname then none else fs mapname
      if iname = mapname || sameInode istat mapstat then some "Infile and mapfile are the same."
      else if oname = mapname || sameInode ostat mapstat then
        some "Outfile and mapfile are the same."
      else none

/-- The message after "Output file exists and is not a regular file.", by the
first option that asks for a regular file. -/
def outfileHint (minOutfileSize : ℤ) (force preallocate sparse : Bool) : List String :=
  if !force then
    ["Use \x27--force\x27 if you really want to overwrite it, but be\n          aware that all existing data in the output file will be lost."]
  else if minOutfileSize > 0 then ["Only regular files can be extended."]
  else if preallocate then ["Only regular files can be preallocated."]
  else if sparse then ["Only regular files can be sparse."]
  else []

/-- `check_files`: `.ok ()` when it returns true, else the messages it shows.
The names are `none` when the command line does not give them. -/
def checkFiles (fs : String → Option FileStat) (iname oname mapname : Option String)
    (minOutfileSize : ℤ) (force generate preallocate sparse : Bool) : Except (List String) Unit :=
  match iname, oname with
  | some iname, some oname =>
    match checkIdentical fs iname oname mapname with
    | some msg => .error [msg]
    | none =>
      if (mapname.bind fs).any (!·.regular) then .error ["Mapfile exists and is not a regular file."]
      else if !generate && (minOutfileSize > 0 || !force || preallocate || sparse) &&
          (fs oname).any (!·.regular) then
        .error ("Output file exists and is not a regular file." ::
          outfileHint minOutfileSize force preallocate sparse)
      else .ok ()
  | _, _ => .error ["Both input and output files must be specified."]

/-! ## What the checks accept -/

/-- Two names denote one file: they are equal, or `stat` finds both with the
same `st_ino` and `st_dev`. -/
def SameFile (fs : String → Option FileStat) (a b : String) : Prop :=
  a = b ∨ ∃ sa sb, fs a = some sa ∧ fs b = some sb ∧ sa.ino = sb.ino ∧ sa.dev = sb.dev

/-- A name that exists is a regular file. -/
def RegularIfExists (fs : String → Option FileStat) (name : String) : Prop :=
  ∀ st, fs name = some st → st.regular = true

theorem sameInode_iff {a b : Option FileStat} :
    sameInode a b = true ↔ ∃ sa sb, a = some sa ∧ b = some sb ∧ sa.ino = sb.ino ∧ sa.dev = sb.dev := by
  cases a <;> cases b <;> simp [sameInode]

/-- `SameFile` as a test. -/
def sameFileB (fs : String → Option FileStat) (a b : String) : Bool :=
  a == b || sameInode (fs a) (fs b)

theorem sameFile_iff {fs : String → Option FileStat} {a b : String} :
    SameFile fs a b ↔ sameFileB fs a b = true := by
  simp [SameFile, sameFileB, sameInode_iff]

/-- `check_identical` with its flags resolved: each pair of roles is compared by
name, then by what `stat` reports; `stat` is skipped only where the names are
equal, and then the pair is refused anyway. -/
theorem checkIdentical_eq (fs : String → Option FileStat) (iname oname : String)
    (mapname : Option String) :
    checkIdentical fs iname oname mapname =
      if sameFileB fs iname oname then some "Infile and outfile are the same."
      else match mapname with
        | none => none
        | some m =>
          if sameFileB fs iname m then some "Infile and mapfile are the same."
          else if sameFileB fs oname m then some "Outfile and mapfile are the same."
          else none := by
  unfold checkIdentical
  by_cases hio : iname = oname
  · simp [hio, sameFileB]
  · cases mapname with
    | none => simp [hio, sameFileB]
    | some m =>
      by_cases him : iname = m
      · subst him
        simp [hio, sameFileB]
      · simp [hio, him, sameFileB]

/-- `check_identical` returns false exactly when the input file, the output file
and the mapfile are three different files. -/
theorem checkIdentical_eq_none_iff (fs : String → Option FileStat) (iname oname : String)
    (mapname : Option String) :
    checkIdentical fs iname oname mapname = none ↔ ¬SameFile fs iname oname ∧
      ∀ m, mapname = some m → ¬SameFile fs iname m ∧ ¬SameFile fs oname m := by
  rw [checkIdentical_eq]
  cases mapname with
  | none => split_ifs <;> simp_all [sameFile_iff]
  | some m =>
    dsimp only
    split_ifs <;> simp_all [sameFile_iff]

theorem any_not_regular_iff {o : Option FileStat} :
    o.any (!·.regular) = false ↔ ∀ st, o = some st → st.regular = true := by
  cases o <;> simp

/-- With both files named, `check_files` accepts exactly when the three files
are different, an existing mapfile is regular, and an existing output file is
regular unless the run writes it plainly or does not write it. -/
theorem checkFiles_some_ok_iff (fs : String → Option FileStat) (i o : String)
    (mapname : Option String) (minOutfileSize : ℤ) (force generate preallocate sparse : Bool) :
    checkFiles fs (some i) (some o) mapname minOutfileSize force generate preallocate sparse =
        .ok () ↔
      ¬SameFile fs i o ∧
        (∀ m, mapname = some m → ¬SameFile fs i m ∧ ¬SameFile fs o m ∧ RegularIfExists fs m) ∧
        (generate = false → (0 < minOutfileSize ∨ force = false ∨ preallocate ∨ sparse) →
          RegularIfExists fs o) := by
  have hmap : (mapname.bind fs).any (!·.regular) = false ↔
      ∀ m, mapname = some m → RegularIfExists fs m := by
    cases mapname <;> simp [RegularIfExists, any_not_regular_iff]
  have hout : (!generate && (decide (minOutfileSize > 0) || !force || preallocate || sparse) &&
      (fs o).any (!·.regular)) = false ↔
      (generate = false → (0 < minOutfileSize ∨ force = false ∨ preallocate ∨ sparse) →
        RegularIfExists fs o) := by
    rw [RegularIfExists, ← any_not_regular_iff]
    cases generate <;> cases force <;> cases preallocate <;> cases sparse <;> simp
  unfold checkFiles
  rcases hid : checkIdentical fs i o mapname with _ | msg
  · obtain ⟨hio, hm⟩ := (checkIdentical_eq_none_iff fs i o mapname).mp hid
    simp only [hid]
    split_ifs with h1 h2
    · -- an existing mapfile is not regular
      have hreg : ¬∀ m, mapname = some m → RegularIfExists fs m := fun h => by
        simp [hmap.mpr h] at h1
      simp only [reduceCtorEq, false_iff]
      exact fun ⟨_, hm', _⟩ => hreg fun m h => (hm' m h).2.2
    · -- an existing output file is not regular, and the run needs a regular one
      have hreg : ¬(generate = false → (0 < minOutfileSize ∨ force = false ∨ preallocate ∨ sparse) →
          RegularIfExists fs o) := fun h => by simp [hout.mpr h] at h2
      simp only [reduceCtorEq, false_iff]
      exact fun ⟨_, _, ho⟩ => hreg ho
    · simp only [true_iff]
      exact ⟨hio, fun m h => ⟨(hm m h).1, (hm m h).2, hmap.mp (by simpa using h1) m h⟩,
        hout.mp (by simpa using h2)⟩
  · have hsame := (checkIdentical_eq_none_iff fs i o mapname).not.mp (by simp [hid])
    simp only [hid, reduceCtorEq, false_iff]
    exact fun ⟨hio, hm, _⟩ => hsame ⟨hio, fun m h => ⟨(hm m h).1, (hm m h).2.1⟩⟩

/-- `check_files` accepts exactly when both files are named, the three files are
different, an existing mapfile is regular, and an existing output file is regular
unless the run writes it plainly (`--force`, no `-x`, `--preallocate` or
`--sparse`) or does not write it (`--generate-mode`). -/
theorem checkFiles_ok_iff (fs : String → Option FileStat) (iname oname mapname : Option String)
    (minOutfileSize : ℤ) (force generate preallocate sparse : Bool) :
    checkFiles fs iname oname mapname minOutfileSize force generate preallocate sparse = .ok () ↔
      ∃ i o, iname = some i ∧ oname = some o ∧ ¬SameFile fs i o ∧
        (∀ m, mapname = some m → ¬SameFile fs i m ∧ ¬SameFile fs o m ∧ RegularIfExists fs m) ∧
        (generate = false → (0 < minOutfileSize ∨ force = false ∨ preallocate ∨ sparse) →
          RegularIfExists fs o) := by
  rcases iname with _ | i
  · simp [checkFiles]
  rcases oname with _ | o
  · simp [checkFiles]
  simp only [checkFiles_some_ok_iff, Option.some.injEq, exists_and_left, exists_eq_left']

/- A hard link of the input file given as the output file is refused. -/
example :
    checkFiles (fun n => if n = "in" ∨ n = "link" then some ⟨1, 1, true⟩ else none)
      (some "in") (some "link") none 0 true false false false =
      .error ["Infile and outfile are the same."] := rfl

end Ddrescue
