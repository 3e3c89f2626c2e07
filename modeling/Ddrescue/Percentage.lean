import Mathlib.Data.Nat.Digits
import Ddrescue.Block

/-!
# Percentages of the status summary

`format_percentage` (src/ddrescuelog.cc) prints `num / den` as a percentage into a
static buffer of 80 characters. It first scales `num` by 100, or by 10 dividing `den`
by 10, or divides `den` by 100, whichever the two guards allow without overflow, and
returns `"+INF"`, `"-INF"` or `"NAN"` when the scaled `den` is 0. It then prints the
integer part with `snprintf( "%*lld" )` and, with a negative `prec`, the fractional
digits of a long division while the remainder is nonzero, then `'%'` and the NUL.

`do_show_status` calls it with the byte count of a status and the size of a nonempty
domain, so `0 ≤ num ≤ den` and `den > 0`. Every signed operation of the model that may
overflow is checked, and so is every write into the buffer: `none` is undefined
behaviour. For these arguments the function is defined, writes below index 80, and,
when the first scaling applies, prints `100 · num / den` truncated to two fractional
digits (`formatPercentage_spec`).
-/

namespace Ddrescue

/-- `INT_MIN`, the least `int`. -/
def intMin : ℤ := -2147483648

/-- The static `char buf[80]` of `format_percentage`, which keeps its size. -/
structure PercentBuf where
  /-- The characters, including what earlier calls left behind. -/
  chars : List Char
  length_eq : chars.length = 80

/-- The buffer before the first call: static storage starts zeroed. -/
def PercentBuf.initial : PercentBuf := ⟨List.replicate 80 '\x00', List.length_replicate _ _⟩

/-- `buf[i] = c`; `none` is a write outside the buffer. -/
def PercentBuf.write (buf : PercentBuf) (i : ℕ) (c : Char) : Option PercentBuf :=
  if i < 80 then some ⟨buf.chars.set i c, by simp [buf.length_eq]⟩ else none

/-- `snprintf( buf, sizeof( buf ), ... )` of the formatted text `s`: it writes at most
79 characters of `s` and a NUL, and returns the length of `s`. -/
def PercentBuf.snprintf (buf : PercentBuf) (s : List Char) : PercentBuf × ℕ :=
  (⟨(s.take 79 ++ ['\x00']) ++ buf.chars.drop (s.take 79 ++ ['\x00']).length, by
    simp only [List.length_append, List.length_take, List.length_drop, buf.length_eq,
      List.length_singleton]
    omega⟩, s.length)

/-- What `format_percentage` returns. -/
inductive PercentText
  /-- One of the texts `"+INF"`, `"-INF"` and `"NAN"` for a zero divisor. -/
  | constant (s : String)
  /-- The static buffer, with the index of the NUL that ends its text. -/
  | buffer (buf : PercentBuf) (nul : ℕ)

/-- The first lines of `format_percentage`: make `den` non-negative, then multiply
`num` by 100 if `llabs( num ) ≤ LLONG_MAX / 100` and `den ≤ LLONG_MAX / 10`; else
multiply it by 10 and divide `den` by 10 if `llabs( num ) ≤ LLONG_MAX / 10`; else
divide `den` by 100. -/
def percentScale (num den : ℤ) : Option (ℤ × ℤ) := do
  let (num, den) ← if den < 0 then do pure (← llNeg num, ← llNeg den) else pure (num, den)
  let a ← llAbs num
  if a ≤ llongMax / 100 ∧ den ≤ llongMax / 10 then do pure (← llMul num 100, den)
  else if a ≤ llongMax / 10 then do pure (← llMul num 10, den.tdiv 10)
  else pure (num, den.tdiv 100)

/-- The digit loop `while( prec > 0 && ( rest > 0 || !trunc ) && i < sizeof( buf ) - 2 )
{ rest *= 10; buf[i++] = (char)( rest / den ) + '0'; rest %= den; --prec; }`, with
`prec` as its fuel. -/
def fractionDigits (den : ℤ) (trunc : Bool) : ℕ → ℤ → ℕ → PercentBuf → Option (PercentBuf × ℕ)
  | 0, _, i, buf => some (buf, i)
  | prec + 1, rest, i, buf =>
    if (0 < rest ∨ trunc = false) ∧ i < 78 then do
      let rest ← llMul rest 10
      let buf ← buf.write i (Char.ofNat ('0'.toNat + (rest.tdiv den).toNat))
      fractionDigits den trunc prec (rest.tmod den) (i + 1) buf
    else some (buf, i)

/-- The printing part of `format_percentage`, after the scaling and for `den ≠ 0`:
the integer part `num / den` right-aligned in `iwidth` columns (`"-0"` for a negative
fraction above -1), the fractional digits when there is room, then `'%'` and the NUL.
`den > 0` here, so `num / den` cannot overflow. -/
def percentWrite (num den : ℤ) (iwidth : ℕ) (prec : ℤ) (buf : PercentBuf) :
    Option PercentText := do
  let trunc := decide (prec < 0)
  let prec ← if prec < 0 then (if prec = intMin then none else some (-prec)) else pure prec
  let (buf, i) := buf.snprintf (List.leftpad iwidth ' '
    (if num < 0 ∧ num.tdiv den = 0 then "-0" else toString (num.tdiv den)).toList)
  let (buf, i) ←
    if i < 78 then do
      let rest := (← llAbs num).tmod den
      if 0 < prec ∧ (0 < rest ∨ trunc = false) then do
        let buf ← buf.write i '.'
        fractionDigits den trunc prec.toNat rest (i + 1) buf
      else pure (buf, i)
    else pure (buf, 78)
  let buf ← buf.write i '%'
  let buf ← buf.write (i + 1) '\x00'
  pure (.buffer buf (i + 1))

/-- `format_percentage( num, den, iwidth, prec )`. -/
def formatPercentage (num den : ℤ) (iwidth : ℕ) (prec : ℤ) (buf : PercentBuf) :
    Option PercentText := do
  let (num, den) ← percentScale num den
  if den = 0 then
    pure (.constant (if 0 < num then "+INF" else if num < 0 then "-INF" else "NAN"))
  else percentWrite num den iwidth prec buf

/-! ### The intended text -/

/-- `n / d` in decimal, truncated toward zero to two fractional digits, which are
shown only while the remainder is nonzero; the integer part right-aligned in three
columns, then `'%'`. -/
def truncatedDecimal (n d : ℕ) : List Char :=
  let m := 100 * n / d
  List.leftpad 3 ' ' (Nat.repr (m / 100)).toList ++
    (if n % d = 0 then []
    else '.' :: Nat.digitChar (m / 10 % 10) ::
      (if 10 * n % d = 0 then [] else [Nat.digitChar (m % 10)])) ++ ['%']

/-- The fractional digits of `r / d` by long division, at most `p` of them, stopping at
a zero remainder. -/
def decimalDigits (d : ℕ) : ℕ → ℕ → List Char
  | 0, _ => []
  | p + 1, r => if r = 0 then [] else Nat.digitChar (10 * r / d) :: decimalDigits d p (10 * r % d)

theorem decimalDigits_length_le (d : ℕ) : ∀ p r, (decimalDigits d p r).length ≤ p
  | 0, _ => le_rfl
  | p + 1, r => by
    unfold decimalDigits
    split
    · exact Nat.zero_le _
    · exact Nat.succ_le_succ (decimalDigits_length_le d p _)

/-- Two steps of long division give the last two digits of `100 * n / d`, and the
remainder after the first is that of `10 * n`. -/
theorem longDivision_two (n d : ℕ) (hd : 0 < d) :
    100 * n / d = 100 * (n / d) + 10 * (10 * (n % d) / d) + 10 * (10 * (n % d) % d) / d ∧
      10 * n % d = 10 * (n % d) % d := by
  have h1 := Nat.div_add_mod n d
  have h2 := Nat.div_add_mod (10 * (n % d)) d
  have h3 := Nat.div_add_mod (10 * (10 * (n % d) % d)) d
  refine ⟨((Nat.div_mod_unique hd).mpr ⟨?_, Nat.mod_lt (10 * (10 * (n % d) % d)) hd⟩).1, ?_⟩
  · rw [Nat.mul_add, Nat.mul_add, Nat.mul_left_comm d 100, Nat.mul_left_comm d 10]
    omega
  · rw [Nat.mul_mod, Nat.mul_mod 10 (n % d), Nat.mod_mod]

/-- The fractional part of `truncatedDecimal` is the long division of the remainder. -/
theorem truncatedDecimal_eq (n d : ℕ) (hd : 0 < d) :
    truncatedDecimal n d = List.leftpad 3 ' ' (Nat.repr (n / d)).toList ++
      (if n % d = 0 then [] else '.' :: decimalDigits d 2 (n % d)) ++ ['%'] := by
  obtain ⟨hm, hr⟩ := longDivision_two n d hd
  have d1 : 10 * (n % d) / d < 10 := by
    rw [Nat.div_lt_iff_lt_mul hd]; have := Nat.mod_lt n hd; omega
  have d2 : 10 * (10 * (n % d) % d) / d < 10 := by
    rw [Nat.div_lt_iff_lt_mul hd]; have := Nat.mod_lt (10 * (n % d)) hd; omega
  simp only [truncatedDecimal, decimalDigits, hm, hr]
  generalize n / d = q, 10 * (n % d) / d = a, 10 * (10 * (n % d) % d) / d = b at *
  rw [show (100 * q + 10 * a + b) / 100 = q by omega,
    show (100 * q + 10 * a + b) / 10 % 10 = a by omega,
    show (100 * q + 10 * a + b) % 10 = b by omega]
  split_ifs <;> rfl

/-- An integer part below 1000 fills exactly the three columns. -/
theorem leftpad_repr_length {q : ℕ} (hq : q < 1000) :
    (List.leftpad 3 ' ' (Nat.repr q).toList).length = 3 := by
  rw [List.leftpad_length]
  exact Nat.max_eq_left (Nat.repr_length q 3 (by decide) hq)

theorem truncatedDecimal_length_le {n d : ℕ} (hd : 0 < d) (hn : n < 1000 * d) :
    (truncatedDecimal n d).length ≤ 7 := by
  have hq := leftpad_repr_length ((Nat.div_lt_iff_lt_mul hd).mpr (by omega : n < 1000 * d))
  have := decimalDigits_length_le d 2 (n % d)
  rw [truncatedDecimal_eq n d hd]
  split_ifs <;> simp only [List.length_append, List.length_cons, List.length_nil] <;> omega

/-! ### The buffer -/

/-- A buffer whose first characters are `t`. -/
def PercentBuf.Holds (buf : PercentBuf) (t : List Char) : Prop := buf.chars.take t.length = t

/-- `buf[i++] = c` at the end of the text `t` extends it by `c`. -/
theorem PercentBuf.Holds.write {buf : PercentBuf} {t : List Char} (h : buf.Holds t)
    (hlt : t.length < 80) (c : Char) :
    ∃ b, buf.write t.length c = some b ∧ b.Holds (t ++ [c]) := by
  refine ⟨_, if_pos hlt, ?_⟩
  unfold PercentBuf.Holds at *
  rw [List.length_append, List.length_singleton, List.take_succ, List.set_take,
    List.set_eq_of_length_le (by simp), h,
    List.getElem?_set_self (by rw [buf.length_eq]; exact hlt)]
  rfl

/-- `snprintf` of a text shorter than the buffer leaves it at the buffer's start. -/
theorem PercentBuf.snprintf_holds (buf : PercentBuf) {s : List Char} (hs : s.length < 79) :
    (buf.snprintf s).1.Holds s ∧ (buf.snprintf s).2 = s.length := by
  refine ⟨?_, rfl⟩
  simp only [PercentBuf.Holds, PercentBuf.snprintf, List.append_assoc,
    List.take_of_length_le (le_of_lt hs)]
  exact List.take_left' rfl

/-- The last two writes of `format_percentage`, `'%'` and the NUL after the text. -/
theorem PercentBuf.Holds.finish {buf : PercentBuf} {t : List Char} (h : buf.Holds t)
    (hlt : t.length + 1 < 80) :
    ∃ b, (do
        let buf ← buf.write t.length '%'
        let buf ← buf.write (t.length + 1) '\x00'
        pure (PercentText.buffer buf (t.length + 1))) =
      some (.buffer b (t ++ ['%']).length) ∧ b.Holds (t ++ ['%'] ++ ['\x00']) := by
  obtain ⟨b1, hw1, h1⟩ := h.write (by omega) '%'
  obtain ⟨b2, hw2, h2⟩ := h1.write (by simp; omega) '\x00'
  simp only [List.length_append, List.length_singleton] at hw2
  exact ⟨b2, by simp [hw1, hw2], h2⟩

/-! ### Scaling and printing -/

/-- For `0 ≤ num ≤ den` and `0 < den ≤ LLONG_MAX` the scaling overflows nowhere,
keeps `den` positive, `num` a `long long` and `num / den` below 1000, and leaves
`den ≤ LLONG_MAX / 10`, so that the digit loop's `rest * 10` fits. Under the first
guard it multiplies `num` by 100. -/
theorem percentScale_of_le {num den : ℕ} (hle : num ≤ den) (hpos : 0 < den)
    (hden : (den : ℤ) ≤ llongMax) :
    ∃ n d : ℕ, percentScale num den = some ((n : ℤ), (d : ℤ)) ∧ 0 < d ∧ n < 1000 * d ∧
      (n : ℤ) ≤ llongMax ∧ (d : ℤ) ≤ llongMax / 10 ∧
      ((num : ℤ) ≤ llongMax / 100 → (den : ℤ) ≤ llongMax / 10 → n = 100 * num ∧ d = den) := by
  have habs : llAbs (num : ℤ) = some (num : ℤ) :=
    llAbs_eq_some.mpr ⟨by unfold FitsLongLong llongMin llongMax at *; omega, rfl⟩
  unfold percentScale
  simp only [show ¬((den : ℤ) < 0) by omega, if_false, pure_bind, habs, Option.bind_eq_bind,
    Option.some_bind]
  unfold llongMax at *
  split_ifs with h1 h2
  · refine ⟨100 * num, den, ?_, hpos, by omega, by omega, h1.2, fun _ _ => ⟨rfl, rfl⟩⟩
    have : llMul (num : ℤ) 100 = some ((100 * num : ℕ) : ℤ) :=
      llMul_eq_some.mpr ⟨by unfold FitsLongLong llongMin llongMax; omega, by push_cast; ring⟩
    rw [this]
    rfl
  · refine ⟨10 * num, den / 10, ?_, by omega, by omega, by omega, by omega,
      fun h h' => absurd ⟨h, h'⟩ h1⟩
    have : llMul (num : ℤ) 10 = some ((10 * num : ℕ) : ℤ) :=
      llMul_eq_some.mpr ⟨by unfold FitsLongLong llongMin llongMax; omega, by push_cast; ring⟩
    rw [this]
    rfl
  · refine ⟨num, den / 100, ?_, by omega, by omega, by omega, by omega,
      fun h h' => absurd ⟨h, h'⟩ h1⟩
    rfl

theorem digitChar_eq {k : ℕ} (hk : k < 10) : Char.ofNat ('0'.toNat + k) = Nat.digitChar k := by
  interval_cases k <;> rfl

/-- The truncating digit loop writes the long-division digits of `rest / den`, and its
`rest * 10` never overflows. -/
theorem fractionDigits_spec {d : ℕ} (hd : 0 < d) (hdm : (d : ℤ) ≤ llongMax / 10) :
    ∀ (p r : ℕ) (buf : PercentBuf) (t : List Char), r < d → t.length + p ≤ 78 → buf.Holds t →
      ∃ b, fractionDigits d true p r t.length buf =
          some (b, (t ++ decimalDigits d p r).length) ∧ b.Holds (t ++ decimalDigits d p r)
  | 0, r, buf, t, _, _, h => ⟨buf, by simp [fractionDigits, decimalDigits, h]⟩
  | p + 1, r, buf, t, hr, hlen, h => by
    by_cases hr0 : r = 0
    · subst hr0
      exact ⟨buf, by simp [fractionDigits, decimalDigits, h]⟩
    have hmul : llMul (r : ℤ) 10 = some ((10 * r : ℕ) : ℤ) :=
      llMul_eq_some.mpr ⟨by unfold FitsLongLong llongMin llongMax at *; omega, by push_cast; ring⟩
    have hdig : 10 * r / d < 10 := by
      rw [Nat.div_lt_iff_lt_mul hd]; omega
    obtain ⟨b1, hw, h1⟩ := h.write (by omega) (Nat.digitChar (10 * r / d))
    obtain ⟨b, hrun, hb⟩ := fractionDigits_spec hd hdm p (10 * r % d) b1
      (t ++ [Nat.digitChar (10 * r / d)]) (Nat.mod_lt _ hd) (by simp; omega) h1
    refine ⟨b, ?_, by simpa [decimalDigits, hr0] using hb⟩
    simp only [List.length_append, List.length_singleton] at hrun
    have hdiv : ((10 * r : ℕ) : ℤ).tdiv d = ((10 * r / d : ℕ) : ℤ) := rfl
    have hmod : ((10 * r : ℕ) : ℤ).tmod d = ((10 * r % d : ℕ) : ℤ) := rfl
    rw [fractionDigits, if_pos ⟨Or.inl (by omega), by omega⟩, hmul]
    simp only [Option.bind_eq_bind, Option.some_bind, hdiv, hmod, Int.toNat_ofNat,
      digitChar_eq hdig, hw, hrun, decimalDigits, hr0, if_false, List.length_append,
      List.length_cons]
    congr 2; omega

/-- For `0 ≤ num < 1000 · den` and `0 < den ≤ LLONG_MAX / 10`, as the scaling leaves
them, the printing part is defined and leaves `truncatedDecimal num den` and a NUL at
the start of the buffer. -/
theorem percentWrite_spec {n d : ℕ} (hd : 0 < d) (hn : n < 1000 * d)
    (hnm : (n : ℤ) ≤ llongMax) (hdm : (d : ℤ) ≤ llongMax / 10) (buf : PercentBuf) :
    ∃ b, percentWrite n d 3 (-2) buf = some (.buffer b (truncatedDecimal n d).length) ∧
      b.Holds (truncatedDecimal n d ++ ['\x00']) := by
  set P := List.leftpad 3 ' ' (Nat.repr (n / d)).toList with hPdef
  have hP : P.length = 3 := leftpad_repr_length ((Nat.div_lt_iff_lt_mul hd).mpr (by omega))
  obtain ⟨h1, hi⟩ := buf.snprintf_holds (s := P) (by omega)
  have habs : llAbs (n : ℤ) = some (n : ℤ) :=
    llAbs_eq_some.mpr ⟨by unfold FitsLongLong llongMin llongMax at *; omega, rfl⟩
  have hmod : (n : ℤ).tmod d = ((n % d : ℕ) : ℤ) := rfl
  have hstr : (if (n : ℤ) < 0 ∧ (n : ℤ).tdiv d = 0 then "-0" else toString ((n : ℤ).tdiv d)) =
      Nat.repr (n / d) := by
    rw [if_neg (by omega)]; rfl
  have hprec : (if (-2 : ℤ) = intMin then none else some (- -2 : ℤ)) = some 2 := by decide
  unfold percentWrite
  rw [if_pos (show (-2 : ℤ) < 0 by decide), hprec]
  simp only [show decide ((-2 : ℤ) < 0) = true from rfl, hstr, ← hPdef, hi, hP,
    Option.bind_eq_bind, Option.some_bind, if_pos (show 3 < 78 by decide), habs, hmod,
    Option.pure_def]
  rw [truncatedDecimal_eq n d hd, ← hPdef]
  by_cases hr : n % d = 0
  · obtain ⟨b, hb, hh⟩ := h1.finish (by omega)
    simp only [hP, Option.bind_eq_bind, Option.pure_def] at hb
    rw [if_pos hr, List.append_nil, hr, if_neg (by simp)]
    exact ⟨b, hb, hh⟩
  · have hpos : (0 : ℤ) < ((n % d : ℕ) : ℤ) := by exact_mod_cast Nat.pos_of_ne_zero hr
    obtain ⟨b1, hw1, hh1⟩ := h1.write (by omega) '.'
    obtain ⟨b2, hw2, hh2⟩ := fractionDigits_spec hd hdm 2 (n % d) b1 (P ++ ['.'])
      (Nat.mod_lt n hd) (by simp [hP]) hh1
    rw [List.append_assoc, List.singleton_append] at hw2 hh2
    obtain ⟨b, hb, hh⟩ := hh2.finish (by simp [hP, decimalDigits]; split_ifs <;> simp)
    simp only [Option.bind_eq_bind, Option.pure_def] at hb
    rw [hP] at hw1
    rw [if_neg hr, if_pos ⟨by decide, Or.inl hpos⟩, hw1, Option.some_bind,
      show Int.toNat 2 = 2 from rfl, show 3 + 1 = (P ++ ['.']).length by simp [hP], hw2,
      Option.some_bind]
    exact ⟨b, hb, hh⟩

/-- For the arguments `do_show_status` passes, `0 ≤ num ≤ den` and `0 < den`,
`format_percentage` overflows nowhere, does not divide by zero (so returns neither
`"+INF"` nor `"NAN"`), and writes only below index 80, its text ending at `nul`. When
`num ≤ LLONG_MAX / 100` and `den ≤ LLONG_MAX / 10` the text is `100 · num / den`
truncated toward zero to two fractional digits, each shown only while the remainder
is nonzero. -/
theorem formatPercentage_spec (num den : ℕ) (hle : num ≤ den) (hpos : 0 < den)
    (hden : (den : ℤ) ≤ llongMax) (buf : PercentBuf) :
    ∃ b nul, formatPercentage num den 3 (-2) buf = some (.buffer b nul) ∧ nul < 80 ∧
      ((num : ℤ) ≤ llongMax / 100 → (den : ℤ) ≤ llongMax / 10 →
        nul = (truncatedDecimal (100 * num) den).length ∧
          b.Holds (truncatedDecimal (100 * num) den ++ ['\x00'])) := by
  obtain ⟨n, d, hs, hd, hn, hnm, hdm, hsmall⟩ := percentScale_of_le hle hpos hden
  obtain ⟨b, hw, hh⟩ := percentWrite_spec hd hn hnm hdm buf
  refine ⟨b, (truncatedDecimal n d).length, ?_, by have := truncatedDecimal_length_le hd hn; omega,
    fun h1 h2 => ?_⟩
  · simp only [formatPercentage, hs, Option.bind_eq_bind, Option.some_bind,
      show (d : ℤ) ≠ 0 by omega, if_false, hw]
  · obtain ⟨rfl, rfl⟩ := hsmall h1 h2
    exact ⟨rfl, hh⟩

theorem formatPercentage_spec_third :
    (1 ≤ 3 ∧ 0 < 3 ∧ ((3 : ℕ) : ℤ) ≤ llongMax) ∧
      ∃ b nul, formatPercentage (1 : ℕ) (3 : ℕ) 3 (-2) PercentBuf.initial = some (.buffer b nul) ∧
        nul < 80 ∧
        (((1 : ℕ) : ℤ) ≤ llongMax / 100 → ((3 : ℕ) : ℤ) ≤ llongMax / 10 →
          nul = (truncatedDecimal (100 * 1) 3).length ∧
            b.Holds (truncatedDecimal (100 * 1) 3 ++ ['\x00'])) :=
  ⟨⟨by decide, by decide, by decide⟩,
    formatPercentage_spec 1 3 (by decide) (by decide) (by decide) PercentBuf.initial⟩

/-- A third is shown as `" 33.33%"`, a half as `" 50%"`. -/
example : truncatedDecimal 100 3 = " 33.33%".toList ∧ truncatedDecimal 50 1 = " 50%".toList := by
  decide

end Ddrescue
