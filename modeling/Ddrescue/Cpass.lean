import Mathlib.Data.Nat.Bitwise

/-!
# The `--cpass` option of ddrescue

`parse_cpass` (src/main.cc) reads `--cpass=<n>[,<n>]`: a comma-separated list of
copying passes, each a digit from `0` to `3`, into the bit set `rb_opts.cpass_bitset`,
where pass `d ≠ 0` sets bit `d - 1`. Any other argument ends the program with
"Bad list of passes in option '--cpass'." and exit status 1.

The loop walks an index `i` over the argument and skips a comma by a second `++i`
only when another character follows it. We model the loop on the suffix starting at
`i`, so that each iteration drops the digit and the comma it consumed, and prove that
the strings it accepts are exactly those of the grammar `d(,d)*`.
-/

namespace Ddrescue

/-- `Char` compares by code point. -/
theorem Char.lt_iff_toNat_lt {a b : Char} : a < b ↔ a.toNat < b.toNat := Iff.rfl

/-- The bit that pass character `ch` adds to the set: `1 << (ch - '1')` for
`ch > '0'`, nothing for `'0'`. -/
def cpassBit (ch : Char) : ℕ :=
  if '0' < ch then 1 <<< (ch.toNat - '1'.toNat) else 0

/-- The loop of `parse_cpass` from index `i` on, given the suffix `arg[i..]` and the bit
set built so far; `none` is the `error = true; break` exit.
* a character outside `'0'..'3'` is an error;
* after a digit, either the string ends, or a comma follows with at least one more
  character (`++i` over the comma), or it is an error. -/
def parseCpassFrom : List Char → ℕ → Option ℕ
  | [], bitset => some bitset
  | ch :: rest, bitset =>
    if ch < '0' ∨ '3' < ch then none
    else
      match rest with
      | [] => some (bitset ||| cpassBit ch)
      | next :: rest' =>
        if next = ',' ∧ rest' ≠ [] then parseCpassFrom rest' (bitset ||| cpassBit ch)
        else none

/-- `parse_cpass`: `error` starts as `arg.empty()`, and an error exits with status 1
(`none`); otherwise the resulting `cpass_bitset`. -/
def parseCpass (arg : List Char) : Option ℕ :=
  if arg.isEmpty then none else parseCpassFrom arg 0

/-- The grammar `d(,d)*` of `--cpass=<n>[,<n>]`, each `d` one of `0`, `1`, `2`, `3`. -/
inductive CpassList : List Char → Prop
  | single {d : Char} : d ∈ ['0', '1', '2', '3'] → CpassList [d]
  | cons {d : Char} {rest : List Char} :
      d ∈ ['0', '1', '2', '3'] → CpassList rest → CpassList (d :: ',' :: rest)

theorem CpassList.ne_nil {l : List Char} (h : CpassList l) : l ≠ [] := by
  cases h <;> simp

/-- The range test of `parse_cpass` accepts exactly the four pass digits. -/
theorem passDigit_iff (ch : Char) : ¬(ch < '0' ∨ '3' < ch) ↔ ch ∈ ['0', '1', '2', '3'] := by
  simp only [Char.lt_iff_toNat_lt, not_or, Nat.not_lt]
  constructor
  · rintro ⟨h0, h3⟩
    rw [← Char.ofNat_toNat ch]
    have : ch.toNat = 48 ∨ ch.toNat = 49 ∨ ch.toNat = 50 ∨ ch.toNat = 51 := by
      change 48 ≤ ch.toNat at h0; change ch.toNat ≤ 51 at h3; omega
    rcases this with h | h | h | h <;> rw [h] <;> decide
  · intro h
    simp only [List.mem_cons, List.mem_singleton, List.not_mem_nil, or_false] at h
    rcases h with rfl | rfl | rfl | rfl <;> decide

/-- The loop succeeds on a nonempty suffix exactly when the suffix is in the grammar. -/
theorem parseCpassFrom_isSome {l : List Char} (hl : l ≠ []) (bitset : ℕ) :
    (parseCpassFrom l bitset).isSome ↔ CpassList l := by
  induction l, bitset using parseCpassFrom.induct with
  | case1 => exact absurd rfl hl
  | case2 ch rest bitset hbad =>
    have hnone : parseCpassFrom (ch :: rest) bitset = none := by
      cases rest <;> simp [parseCpassFrom, hbad]
    simp only [hnone, Option.isSome_none, Bool.false_eq_true, false_iff]
    rintro (⟨hd⟩ | ⟨hd, -⟩) <;> exact (passDigit_iff ch).mpr hd hbad
  | case3 ch bitset hok =>
    simp only [parseCpassFrom, hok, if_false, Option.isSome_some, true_iff]
    exact .single ((passDigit_iff ch).mp hok)
  | case4 ch bitset hok next rest hnext ih =>
    obtain ⟨rfl, hrest⟩ := hnext
    simp only [parseCpassFrom, hok, hrest, if_false, ne_eq, not_false_eq_true, and_self,
      if_true]
    rw [ih hrest]
    exact ⟨.cons ((passDigit_iff ch).mp hok), fun h => by cases h; assumption⟩
  | case5 ch bitset hok next rest hnext =>
    simp only [parseCpassFrom, hok, hnext, if_false, Option.isSome_none,
      Bool.false_eq_true, false_iff]
    rintro ⟨⟩
    exact hnext ⟨rfl, CpassList.ne_nil ‹_›⟩

/-- A pass character sets bit `k` exactly when it is a digit above `'0'` with
`ch - '1' = k`. -/
theorem testBit_or_cpassBit (bitset : ℕ) (ch : Char) (k : ℕ) :
    (bitset ||| cpassBit ch).testBit k = true ↔
      bitset.testBit k = true ∨ ('0' < ch ∧ ch.toNat - '1'.toNat = k) := by
  unfold cpassBit
  split <;> simp_all [Nat.testBit_or, Nat.one_shiftLeft, Nat.testBit_two_pow]

/-- The bits the loop adds are those of the pass digits `d ≠ '0'` in the suffix. -/
theorem parseCpassFrom_testBit {l : List Char} {bitset r : ℕ}
    (h : parseCpassFrom l bitset = some r) (k : ℕ) :
    r.testBit k = true ↔
      bitset.testBit k = true ∨ ∃ d ∈ l, '0' < d ∧ d ≤ '3' ∧ d.toNat - '1'.toNat = k := by
  induction l, bitset using parseCpassFrom.induct generalizing r with
  | case1 bitset =>
    cases h
    simp
  | case2 ch rest bitset hbad =>
    cases rest <;> simp [parseCpassFrom, hbad] at h
  | case3 ch bitset hok =>
    simp only [parseCpassFrom, hok, if_false, Option.some.injEq] at h
    subst h
    have h3 : ch ≤ '3' := Char.not_lt.mp (not_or.mp hok).2
    rw [testBit_or_cpassBit]
    simp [h3]
  | case4 ch bitset hok next rest hnext ih =>
    obtain ⟨rfl, hrest⟩ := hnext
    simp only [parseCpassFrom, hok, hrest, if_false, ne_eq, not_false_eq_true, and_self,
      if_true] at h
    have h3 : ch ≤ '3' := Char.not_lt.mp (not_or.mp hok).2
    have hcomma : ¬('0' < ',') := by decide
    rw [ih h, testBit_or_cpassBit]
    simp only [List.mem_cons, exists_eq_or_imp, hcomma, h3, false_and, true_and, false_or,
      or_assoc]
  | case5 ch bitset hok next rest hnext =>
    simp [parseCpassFrom, hok, hnext] at h

/-- `parse_cpass` returns (instead of exiting with status 1) exactly on the strings of
the grammar `d(,d)*`, and then bit `k` of `cpass_bitset` is set exactly when a digit
`d ≠ '0'` of the argument has `d - 1 = k`: the set is the bitwise OR of
`1 << (d - 1)` over those digits. -/
theorem parseCpass_spec (arg : List Char) :
    ((parseCpass arg).isSome ↔ CpassList arg) ∧
      ∀ bitset, parseCpass arg = some bitset → ∀ k,
        (bitset.testBit k = true ↔ ∃ d ∈ arg, '0' < d ∧ d ≤ '3' ∧ d.toNat - '1'.toNat = k) := by
  rcases arg with _ | ⟨ch, rest⟩
  · exact ⟨by simpa [parseCpass] using fun h => CpassList.ne_nil h rfl,
      fun _ h => by simp [parseCpass] at h⟩
  · simp only [parseCpass, List.isEmpty_cons, Bool.false_eq_true, if_false]
    refine ⟨parseCpassFrom_isSome (List.cons_ne_nil ch rest) 0, fun bitset h k => ?_⟩
    simp [parseCpassFrom_testBit h k]

theorem parseCpass_spec_one_three :
    parseCpass ['1', ',', '3'] = some 5 ∧
      (Nat.testBit 5 2 = true ↔
        ∃ d ∈ ['1', ',', '3'], '0' < d ∧ d ≤ '3' ∧ d.toNat - '1'.toNat = 2) :=
  ⟨rfl, (parseCpass_spec ['1', ',', '3']).2 5 rfl 2⟩

/-- A trailing comma and a doubled comma are both refused. -/
example : parseCpass ['1', ','] = none ∧ parseCpass ['1', ',', ',', '2'] = none := by decide

end Ddrescue
