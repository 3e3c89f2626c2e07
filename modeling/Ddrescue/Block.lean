import Mathlib.Data.List.Chain

/-!
# Blocks, sblocks and domains

The value types of ddrescue's block algebra: a half-open byte range `Block`,
an `Sblock` carrying one of the five recovery statuses, and the rescue
`Domain`, an ordered list of disjoint blocks. Positions and sizes are
natural numbers; the overflow bounds of the C++ `long long` fields are stated
where a theorem needs them, and the model of an operation that may overflow gives
it no result there. The predicates are `Bool`-valued, as the C++ member
functions are, and each has a `simp` lemma unfolding it to arithmetic.
-/

namespace Ddrescue

/-- `LLONG_MAX`, the largest `long long`: `2 ^ 63 - 1`. -/
def llongMax : ℤ := 9223372036854775807

/-- `LLONG_MIN`, the least `long long`: `-2 ^ 63`. -/
def llongMin : ℤ := -9223372036854775808

/-- A `long long` holds `x`. Signed overflow is undefined in C++, so the
model of an operation that may overflow checks its result against this. -/
def FitsLongLong (x : ℤ) : Prop := llongMin ≤ x ∧ x ≤ llongMax

instance (x : ℤ) : Decidable (FitsLongLong x) := inferInstanceAs (Decidable (_ ∧ _))

/-- `a * b` on `long long`; `none` where it overflows. -/
def llMul (a b : ℤ) : Option ℤ := if FitsLongLong (a * b) then some (a * b) else none

/-- `-a` on `long long`; `none` for `-LLONG_MIN`. -/
def llNeg (a : ℤ) : Option ℤ := if FitsLongLong (-a) then some (-a) else none

/-- `llabs( a )`; `none` for `llabs( LLONG_MIN )`, which is undefined. -/
def llAbs (a : ℤ) : Option ℤ := if FitsLongLong a.natAbs then some a.natAbs else none

@[simp] theorem llMul_eq_some {a b c : ℤ} :
    llMul a b = some c ↔ FitsLongLong (a * b) ∧ a * b = c := by
  unfold llMul
  split <;> simp_all

@[simp] theorem llNeg_eq_some {a c : ℤ} : llNeg a = some c ↔ FitsLongLong (-a) ∧ -a = c := by
  unfold llNeg
  split <;> simp_all

@[simp] theorem llAbs_eq_some {a c : ℤ} : llAbs a = some c ↔ FitsLongLong a.natAbs ∧ (a.natAbs : ℤ) = c := by
  unfold llAbs
  split <;> simp_all

/-- `Sblock::Status`: the recovery state of a range of bytes. -/
inductive Status
  | nonTried
  | nonTrimmed
  | nonSplit
  | badSector
  | finished
  deriving DecidableEq, Repr

/-- The character each status has in a mapfile (`enum Status` in `block.h`). -/
def Status.toChar : Status → Char
  | nonTried => '?'
  | nonTrimmed => '*'
  | nonSplit => '/'
  | badSector => '-'
  | finished => '+'

/-- `Sblock::Status( ch )` for a character accepted by `Sblock::isstatus`. -/
def Status.ofChar : Char → Option Status
  | '?' => some nonTried
  | '*' => some nonTrimmed
  | '/' => some nonSplit
  | '-' => some badSector
  | '+' => some finished
  | _ => none

/-- `Sblock::isstatus`: the character names one of the five statuses. -/
def isstatus (c : Char) : Bool := (Status.ofChar c).isSome

/-- Reading back the character of a status gives the status. -/
@[simp] theorem Status.ofChar_toChar (s : Status) : Status.ofChar s.toChar = some s := by
  cases s <;> rfl

/-- The half-open byte range `[pos, pos + size)`. -/
@[ext]
structure Block where
  /-- First byte of the range. -/
  pos : ℕ
  /-- Number of bytes in the range. -/
  size : ℕ
  deriving DecidableEq, Repr

/-- `Block::end()`: the first byte past the range. -/
def Block.endPos (b : Block) : ℕ := b.pos + b.size

/-- `Block::includes( pos )`. -/
def Block.includesPos (b : Block) (p : ℕ) : Bool := b.pos ≤ p && p < b.endPos

/-- `Block::includes( block )`. -/
def Block.includes (b c : Block) : Bool := b.pos ≤ c.pos && c.endPos ≤ b.endPos

/-- `Block::operator<`: `b` ends at or before `c` starts. -/
def Block.lt (b c : Block) : Bool := b.endPos ≤ c.pos

@[simp] theorem Block.endPos_eq (b : Block) : b.endPos = b.pos + b.size := rfl

@[simp] theorem Block.includesPos_iff (b : Block) (p : ℕ) :
    b.includesPos p = true ↔ b.pos ≤ p ∧ p < b.pos + b.size := by
  simp [Block.includesPos]

@[simp] theorem Block.includes_iff (b c : Block) :
    b.includes c = true ↔ b.pos ≤ c.pos ∧ c.pos + c.size ≤ b.pos + b.size := by
  simp [Block.includes]

@[simp] theorem Block.lt_iff (b c : Block) : b.lt c = true ↔ b.pos + b.size ≤ c.pos := by
  simp [Block.lt]

/-- `Sblock`: a block tagged with the status of all its bytes. -/
structure Sblock extends Block where
  /-- The status shared by every byte of the block. -/
  status : Status
  deriving DecidableEq, Repr

/-- `Domain`: the bytes the user wants rescued, as an ordered list of
disjoint blocks. -/
structure Domain where
  /-- The blocks of the domain, in ascending order. -/
  blocks : List Block
  deriving DecidableEq, Repr

/-- `Domain::includes( block )`: one block of the domain includes `b`. -/
def Domain.includes (d : Domain) (b : Block) : Bool := d.blocks.any (·.includes b)

/-- `Domain::includes( pos )`: one block of the domain includes the byte `p`. -/
def Domain.includesPos (d : Domain) (p : ℕ) : Bool := d.blocks.any (·.includesPos p)

/-- `Domain::operator<( block )`: the last block of the domain ends at or
before `b` starts. The empty domain of the C++ class holds the sentinel
`Block( 0, 0 )`, which lies before every block; so does `[]` here. -/
def Domain.lt (d : Domain) (b : Block) : Bool :=
  match d.blocks.getLast? with
  | some last => last.lt b
  | none => true

@[simp] theorem Domain.includes_iff (d : Domain) (b : Block) :
    d.includes b = true ↔ ∃ db ∈ d.blocks, db.pos ≤ b.pos ∧ b.pos + b.size ≤ db.pos + db.size := by
  simp [Domain.includes]

@[simp] theorem Domain.includesPos_iff (d : Domain) (p : ℕ) :
    d.includesPos p = true ↔ ∃ db ∈ d.blocks, db.pos ≤ p ∧ p < db.pos + db.size := by
  simp [Domain.includesPos]

/-- A domain as the Domain constructor builds it: blocks nonempty and in
ascending order, each ending at or before the next starts. -/
structure Domain.Valid (d : Domain) : Prop where
  /-- Every block of the domain has at least one byte. -/
  nonempty : ∀ db ∈ d.blocks, 0 < db.size
  /-- Each block ends at or before the next one starts. -/
  ordered : d.blocks.Chain' fun a b => a.pos + a.size ≤ b.pos

/-- Every byte of a block the domain includes is a byte of the domain. -/
theorem Domain.includesPos_of_includes {d : Domain} {b : Block} (h : d.includes b = true)
    {p : ℕ} (hp : b.pos ≤ p ∧ p < b.pos + b.size) : d.includesPos p = true := by
  obtain ⟨db, hdb, h1, h2⟩ := (Domain.includes_iff _ _).mp h
  exact (Domain.includesPos_iff _ _).mpr ⟨db, hdb, by omega, by omega⟩

/-- A block inside a block of the domain is itself in the domain. -/
theorem Domain.includes_of_includes {d : Domain} {b c : Block} (h : d.includes b = true)
    (hc : b.pos ≤ c.pos ∧ c.pos + c.size ≤ b.pos + b.size) : d.includes c = true := by
  obtain ⟨db, hdb, h1, h2⟩ := (Domain.includes_iff _ _).mp h
  exact (Domain.includes_iff _ _).mpr ⟨db, hdb, by omega, by omega⟩

end Ddrescue
