import Mathlib.Data.List.Basic

/-!
# Positional reads and writes with `EINTR` retry

`readblock` and `writeblock` (src/io.cc) seek to `pos` and then call `read` (or
`write`) until `size` bytes have moved, retrying a call interrupted by a signal
(`EINTR`). `readblock` also stops at a 0-byte read, the end of the file; `writeblock`
has no such branch and calls `write` again after it returns 0.

The kernel is an environment (`SysEnv`) that answers the `lseek` and the `k`-th call,
asked for `r` bytes, with a count or an error; `SysEnv.Valid` is what POSIX promises of
it. For every valid environment, each function returns a count within `size` that is
the sum of the counts received, with the bytes moved in order between `buf[0, sz)` and
the file at `pos .. pos + sz`; a short `readblock` has `errno == 0` exactly at the end
of the file, and a short `writeblock` always has `errno ≠ 0`. With finitely many
interrupted calls `readblock` ends, while `writeblock` ends only if also finitely many
calls return 0: a device that keeps answering 0 makes it spin.
-/

namespace Ddrescue

/-- `EINTR`. -/
def eintr : ℕ := 4

/-- How a system call ends: with a non-negative return value, or with -1 and `errno`. -/
inductive SysResult
  | ok (n : ℕ)
  | err (errno : ℕ)
  deriving DecidableEq, Repr

/-- The bytes a call moved: its return value, none for a failure. -/
def SysResult.moved : SysResult → ℕ
  | ok n => n
  | err _ => 0

@[simp] theorem SysResult.moved_ok (n : ℕ) : (SysResult.ok n).moved = n := rfl

@[simp] theorem SysResult.moved_err (e : ℕ) : (SysResult.err e).moved = 0 := rfl

/-- The bytes a run of answers moved in all. -/
def SysResult.total : List SysResult → ℕ
  | [] => 0
  | r :: rs => r.moved + total rs

@[simp] theorem SysResult.total_nil : SysResult.total [] = 0 := rfl

@[simp] theorem SysResult.total_append (l l' : List SysResult) :
    SysResult.total (l ++ l') = SysResult.total l + SysResult.total l' := by
  induction l with
  | nil => simp
  | cons r rs ih => rw [List.cons_append, SysResult.total, SysResult.total, ih, Nat.add_assoc]

@[simp] theorem SysResult.total_singleton (r : SysResult) : SysResult.total [r] = r.moved := rfl

/-- The kernel's answers during one `readblock` or `writeblock`: `seek` to the `lseek`,
and `call k r` to its `k`-th `read` (or `write`), asked for `r` bytes. -/
structure SysEnv where
  seek : SysResult
  call : ℕ → ℕ → SysResult

/-- What POSIX promises of the answers: a failure sets a nonzero `errno`, and a call
moves at most the bytes asked for. -/
structure SysEnv.Valid (env : SysEnv) : Prop where
  seek_err : ∀ e, env.seek = .err e → e ≠ 0
  call_err : ∀ k r e, env.call k r = .err e → e ≠ 0
  call_le : ∀ k r, (env.call k r).moved ≤ r

/-- The state the two functions work on: the local `sz`, the global `errno`, the file
offset of `fd`, the bytes of `buf` and of the file, and the answers received so far
(a record of the run, newest last; the index of the next call is its length). -/
structure IoState where
  sz : ℕ
  errno : ℕ
  offset : ℕ
  buf : ℕ → UInt8
  file : ℕ → UInt8
  trace : List SysResult

/-- A `read` that returned `n`, followed by `sz += n`: the `n` bytes at the file offset
land at `buf + sz`, and the offset and `sz` advance by `n`. -/
def IoState.readBytes (s : IoState) (n : ℕ) : IoState :=
  { s with
    buf := fun i => if s.sz ≤ i ∧ i < s.sz + n then s.file (s.offset + (i - s.sz)) else s.buf i
    offset := s.offset + n
    sz := s.sz + n }

/-- A `write` that returned `n`, followed by `sz += n`: the `n` bytes at `buf + sz` land
at the file offset, and the offset and `sz` advance by `n`. -/
def IoState.writeBytes (s : IoState) (n : ℕ) : IoState :=
  { s with
    file := fun j => if s.offset ≤ j ∧ j < s.offset + n then s.buf (s.sz + (j - s.offset))
      else s.file j
    offset := s.offset + n
    sz := s.sz + n }

/-- One call of the loops: `errno = 0;` then the call for the `size - sz` bytes left,
whose answer is recorded. -/
def IoState.call (env : SysEnv) (size : ℕ) (s : IoState) : SysResult × IoState :=
  let r := env.call s.trace.length (size - s.sz)
  (r, { s with errno := 0, trace := s.trace ++ [r] })

/-- The loop of `readblock`, with `fuel` bounding its passes (`none` when it runs out):
`while( sz < size ) { errno = 0; const int n = read( fd, buf + sz, size - sz );
if( n > 0 ) sz += n; else if( n == 0 ) break; else if( errno != EINTR ) break; }` -/
def readLoop (env : SysEnv) (size : ℕ) : ℕ → IoState → Option IoState
  | 0, _ => none
  | fuel + 1, s =>
    if s.sz < size then
      match s.call env size with
      | (.ok 0, s) => some s
      | (.ok (n + 1), s) => readLoop env size fuel (s.readBytes (n + 1))
      | (.err e, s) =>
        if e ≠ eintr then some { s with errno := e }
        else readLoop env size fuel { s with errno := e }
    else some s

/-- The loop of `writeblock`, with `fuel` bounding its passes:
`while( sz < size ) { errno = 0; const int n = write( fd, buf + sz, size - sz );
if( n > 0 ) sz += n; else if( n < 0 && errno != EINTR ) break; }`
Unlike `readLoop`, a call that returns 0 leads to the next pass. -/
def writeLoop (env : SysEnv) (size : ℕ) : ℕ → IoState → Option IoState
  | 0, _ => none
  | fuel + 1, s =>
    if s.sz < size then
      match s.call env size with
      | (.ok 0, s) => writeLoop env size fuel s
      | (.ok (n + 1), s) => writeLoop env size fuel (s.writeBytes (n + 1))
      | (.err e, s) =>
        if e ≠ eintr then some { s with errno := e }
        else writeLoop env size fuel { s with errno := e }
    else some s

/-- `readblock( fd, buf, size, pos )`: `sz = 0; errno = 0;`, then the loop if
`lseek( fd, pos, SEEK_SET ) >= 0`. The value returned is the final `sz`. -/
def readblock (env : SysEnv) (size pos fuel : ℕ) (s : IoState) : Option IoState :=
  let s := { s with sz := 0, errno := 0, trace := [] }
  match env.seek with
  | .ok _ => readLoop env size fuel { s with offset := pos }
  | .err e => some { s with errno := e }

/-- `writeblock( fd, buf, size, pos )`, in the shape of `readblock`. -/
def writeblock (env : SysEnv) (size pos fuel : ℕ) (s : IoState) : Option IoState :=
  let s := { s with sz := 0, errno := 0, trace := [] }
  match env.seek with
  | .ok _ => writeLoop env size fuel { s with offset := pos }
  | .err e => some { s with errno := e }

/-! ### The invariants of the loops -/

/-- What both loops keep: `sz` stays within `size` and is the sum of the counts
received, and the file offset is `pos + sz`. -/
structure IoState.Counted (size pos : ℕ) (s : IoState) : Prop where
  sz_le : s.sz ≤ size
  offset_eq : s.offset = pos + s.sz
  sz_eq : s.sz = SysResult.total s.trace

/-- `buf[0, sz)` holds the file's bytes from `pos` on, in order; the file and the rest
of the buffer are untouched. -/
structure IoState.ReadInto (pos : ℕ) (file buf : ℕ → UInt8) (s : IoState) : Prop where
  file_eq : s.file = file
  buf_lt : ∀ i < s.sz, s.buf i = file (pos + i)
  buf_ge : ∀ i, s.sz ≤ i → s.buf i = buf i

/-- The file holds `buf[0, sz)` from `pos` on, in order; the buffer and the rest of the
file are untouched. -/
structure IoState.WriteFrom (pos : ℕ) (buf file : ℕ → UInt8) (s : IoState) : Prop where
  buf_eq : s.buf = buf
  file_lt : ∀ i < s.sz, s.file (pos + i) = buf i
  file_out : ∀ j, j < pos ∨ pos + s.sz ≤ j → s.file j = file j

theorem IoState.call_eq {env : SysEnv} {size : ℕ} {s s' : IoState} {r : SysResult}
    (h : s.call env size = (r, s')) :
    env.call s.trace.length (size - s.sz) = r ∧
      s' = { s with errno := 0, trace := s.trace ++ [r] } := by
  simp only [IoState.call, Prod.mk.injEq] at h
  obtain ⟨rfl, rfl⟩ := h
  exact ⟨rfl, rfl⟩

/-- An answer that moves nothing keeps the count. -/
theorem IoState.Counted.record {size pos : ℕ} {s : IoState} (h : s.Counted size pos)
    {r : SysResult} (hr : r.moved = 0) (e : ℕ) :
    ({ s with errno := e, trace := s.trace ++ [r] } : IoState).Counted size pos :=
  ⟨h.sz_le, h.offset_eq, by simp [h.sz_eq, hr]⟩

theorem IoState.Counted.readBytes {size pos : ℕ} {s : IoState} (h : s.Counted size pos)
    {m : ℕ} (hm : m ≤ size - s.sz) (e : ℕ) :
    ({ s with errno := e, trace := s.trace ++ [.ok m] } : IoState).readBytes m |>.Counted size pos :=
  ⟨by simp [IoState.readBytes]; have := h.sz_le; omega,
    by simp [IoState.readBytes, h.offset_eq]; omega, by simp [IoState.readBytes, h.sz_eq]⟩

theorem IoState.Counted.writeBytes {size pos : ℕ} {s : IoState} (h : s.Counted size pos)
    {m : ℕ} (hm : m ≤ size - s.sz) (e : ℕ) :
    ({ s with errno := e, trace := s.trace ++ [.ok m] } : IoState).writeBytes m |>.Counted size pos :=
  ⟨by simp [IoState.writeBytes]; have := h.sz_le; omega,
    by simp [IoState.writeBytes, h.offset_eq]; omega, by simp [IoState.writeBytes, h.sz_eq]⟩

/-- A `read` at the offset `pos + sz` appends the next file bytes to `buf[0, sz)`. -/
theorem IoState.ReadInto.readBytes {pos : ℕ} {file buf : ℕ → UInt8} {s : IoState}
    (h : s.ReadInto pos file buf) (hoff : s.offset = pos + s.sz) (m : ℕ) :
    (s.readBytes m).ReadInto pos file buf := by
  refine ⟨h.file_eq, fun i hi => ?_, fun i hi => ?_⟩
  · simp only [IoState.readBytes] at hi ⊢
    split_ifs with hin
    · rw [h.file_eq, hoff]; congr 1; omega
    · exact h.buf_lt i (by omega)
  · simp only [IoState.readBytes] at hi ⊢
    rw [if_neg (by omega)]
    exact h.buf_ge i (by omega)

/-- A `write` at the offset `pos + sz` puts the next buffer bytes after the file's
`pos .. pos + sz`. -/
theorem IoState.WriteFrom.writeBytes {pos : ℕ} {buf file : ℕ → UInt8} {s : IoState}
    (h : s.WriteFrom pos buf file) (hoff : s.offset = pos + s.sz) (m : ℕ) :
    (s.writeBytes m).WriteFrom pos buf file := by
  refine ⟨h.buf_eq, fun i hi => ?_, fun j hj => ?_⟩
  · simp only [IoState.writeBytes] at hi ⊢
    split_ifs with hin
    · rw [h.buf_eq]; congr 1; omega
    · exact h.file_lt i (by omega)
  · simp only [IoState.writeBytes] at hj ⊢
    rw [if_neg (by omega)]
    exact h.file_out j (by omega)

theorem IoState.ReadInto.record {pos : ℕ} {file buf : ℕ → UInt8} {s : IoState}
    (h : s.ReadInto pos file buf) (e : ℕ) (t : List SysResult) :
    ({ s with errno := e, trace := t } : IoState).ReadInto pos file buf :=
  ⟨h.file_eq, h.buf_lt, h.buf_ge⟩

theorem IoState.WriteFrom.record {pos : ℕ} {buf file : ℕ → UInt8} {s : IoState}
    (h : s.WriteFrom pos buf file) (e : ℕ) (t : List SysResult) :
    ({ s with errno := e, trace := t } : IoState).WriteFrom pos buf file :=
  ⟨h.buf_eq, h.file_lt, h.file_out⟩

/-! ### Runs of the loops -/

section Runs

variable {env : SysEnv} {size pos : ℕ}

/-- Every pass of the `readblock` loop keeps both invariants, and a run that stops short
of `size` has `errno == 0` exactly when its last `read` returned 0. -/
theorem readLoop_spec (henv : env.Valid) {file buf : ℕ → UInt8} (fuel : ℕ) (s : IoState) :
    ∀ {s'}, readLoop env size fuel s = some s' → s.Counted size pos → s.ReadInto pos file buf →
      s'.Counted size pos ∧ s'.ReadInto pos file buf ∧
        (s'.sz < size → (s'.errno = 0 ↔ s'.trace.getLast? = some (.ok 0))) := by
  induction fuel, s using readLoop.induct env size with
  | case1 s => intro s' h; cases h
  | case2 fuel s hlt s1 hcall =>
    intro s' h hc hr
    obtain ⟨-, rfl⟩ := IoState.call_eq hcall
    simp only [readLoop, hlt, if_true, hcall, Option.some.injEq] at h
    subst h
    exact ⟨hc.record (SysResult.moved_ok 0) 0, hr.record _ _, fun _ => by simp⟩
  | case3 fuel s hlt n s1 hcall ih =>
    intro s' h hc hr
    obtain ⟨hn, rfl⟩ := IoState.call_eq hcall
    simp only [readLoop, hlt, if_true, hcall] at h
    have hle := henv.call_le s.trace.length (size - s.sz)
    rw [hn, SysResult.moved_ok] at hle
    exact ih h (hc.readBytes hle 0) ((hr.record 0 (s.trace ++ [.ok (n + 1)])).readBytes hc.offset_eq _)
  | case4 fuel s hlt e s1 hcall he =>
    intro s' h hc hr
    obtain ⟨hn, rfl⟩ := IoState.call_eq hcall
    simp only [readLoop, hlt, if_true, hcall, he, if_true, Option.some.injEq, ne_eq,
      not_false_eq_true] at h
    subst h
    have he0 := henv.call_err _ _ e hn
    exact ⟨hc.record (SysResult.moved_err e) e, hr.record _ _, fun _ => by simp [he0]⟩
  | case5 fuel s hlt e s1 hcall he ih =>
    intro s' h hc hr
    obtain ⟨-, rfl⟩ := IoState.call_eq hcall
    simp only [readLoop, hlt, if_true, hcall, he, if_false] at h
    exact ih h (hc.record (SysResult.moved_err e) e) (hr.record _ _)
  | case6 fuel s hge =>
    intro s' h hc hr
    simp only [readLoop, hge, if_false, Option.some.injEq] at h
    subst h
    exact ⟨hc, hr, fun h => absurd h hge⟩

/-- Every pass of the `writeblock` loop keeps both invariants, and a run that stops
short of `size` has `errno ≠ 0`. -/
theorem writeLoop_spec (henv : env.Valid) {buf file : ℕ → UInt8} (fuel : ℕ) (s : IoState) :
    ∀ {s'}, writeLoop env size fuel s = some s' → s.Counted size pos → s.WriteFrom pos buf file →
      s'.Counted size pos ∧ s'.WriteFrom pos buf file ∧ (s'.sz < size → s'.errno ≠ 0) := by
  induction fuel, s using writeLoop.induct env size with
  | case1 s => intro s' h; cases h
  | case2 fuel s hlt s1 hcall ih =>
    intro s' h hc hw
    obtain ⟨-, rfl⟩ := IoState.call_eq hcall
    simp only [writeLoop, hlt, if_true, hcall] at h
    exact ih h (hc.record (SysResult.moved_ok 0) 0) (hw.record _ _)
  | case3 fuel s hlt n s1 hcall ih =>
    intro s' h hc hw
    obtain ⟨hn, rfl⟩ := IoState.call_eq hcall
    simp only [writeLoop, hlt, if_true, hcall] at h
    have hle := henv.call_le s.trace.length (size - s.sz)
    rw [hn, SysResult.moved_ok] at hle
    exact ih h (hc.writeBytes hle 0) ((hw.record 0 (s.trace ++ [.ok (n + 1)])).writeBytes hc.offset_eq _)
  | case4 fuel s hlt e s1 hcall he =>
    intro s' h hc hw
    obtain ⟨hn, rfl⟩ := IoState.call_eq hcall
    simp only [writeLoop, hlt, if_true, hcall, he, if_true, Option.some.injEq, ne_eq,
      not_false_eq_true] at h
    subst h
    exact ⟨hc.record (SysResult.moved_err e) e, hw.record _ _, fun _ => henv.call_err _ _ e hn⟩
  | case5 fuel s hlt e s1 hcall he ih =>
    intro s' h hc hw
    obtain ⟨-, rfl⟩ := IoState.call_eq hcall
    simp only [writeLoop, hlt, if_true, hcall, he, if_false] at h
    exact ih h (hc.record (SysResult.moved_err e) e) (hw.record _ _)
  | case6 fuel s hge =>
    intro s' h hc hw
    simp only [writeLoop, hge, if_false, Option.some.injEq] at h
    subst h
    exact ⟨hc, hw, fun h => absurd h hge⟩

/-- Without interrupted calls from the `N`-th on, the `readblock` loop ends within
`N - calls + (size - sz) + 1` passes: every other pass adds a byte or leaves. -/
theorem readLoop_terminates {N : ℕ} (hN : ∀ k ≥ N, ∀ r, env.call k r ≠ .err eintr)
    (fuel : ℕ) (s : IoState) (hfuel : N - s.trace.length + (size - s.sz) < fuel) :
    ∃ s', readLoop env size fuel s = some s' := by
  induction fuel, s using readLoop.induct env size with
  | case1 s => omega
  | case2 fuel s hlt s1 hcall => simp [readLoop, hlt, hcall]
  | case3 fuel s hlt n s1 hcall ih =>
    obtain ⟨-, rfl⟩ := IoState.call_eq hcall
    simp only [readLoop, hlt, if_true, hcall]
    exact ih (by simp only [IoState.readBytes, List.length_append, List.length_singleton]; omega)
  | case4 fuel s hlt e s1 hcall he => simp [readLoop, hlt, hcall, he]
  | case5 fuel s hlt e s1 hcall he ih =>
    obtain ⟨hn, rfl⟩ := IoState.call_eq hcall
    have hk : s.trace.length < N := by
      by_contra hk
      exact hN s.trace.length (by omega) _ (by rw [hn, not_not.mp he])
    simp only [readLoop, hlt, if_true, hcall, he, if_false]
    exact ih (by dsimp only; simp only [List.length_append, List.length_singleton]; omega)
  | case6 fuel s hge => simp [readLoop, hge]

/-- Without interrupted calls and without calls returning 0 from the `N`-th on, the
`writeblock` loop ends within `N - calls + (size - sz) + 1` passes. -/
theorem writeLoop_terminates {N : ℕ}
    (hN : ∀ k ≥ N, ∀ r, env.call k r ≠ .err eintr ∧ env.call k r ≠ .ok 0)
    (fuel : ℕ) (s : IoState) (hfuel : N - s.trace.length + (size - s.sz) < fuel) :
    ∃ s', writeLoop env size fuel s = some s' := by
  induction fuel, s using writeLoop.induct env size with
  | case1 s => omega
  | case2 fuel s hlt s1 hcall ih =>
    obtain ⟨hn, rfl⟩ := IoState.call_eq hcall
    have hk : s.trace.length < N := by
      by_contra hk
      exact (hN s.trace.length (by omega) _).2 hn
    simp only [writeLoop, hlt, if_true, hcall]
    exact ih (by dsimp only; simp only [List.length_append, List.length_singleton]; omega)
  | case3 fuel s hlt n s1 hcall ih =>
    obtain ⟨-, rfl⟩ := IoState.call_eq hcall
    simp only [writeLoop, hlt, if_true, hcall]
    exact ih (by simp only [IoState.writeBytes, List.length_append, List.length_singleton]; omega)
  | case4 fuel s hlt e s1 hcall he => simp [writeLoop, hlt, hcall, he]
  | case5 fuel s hlt e s1 hcall he ih =>
    obtain ⟨hn, rfl⟩ := IoState.call_eq hcall
    have hk : s.trace.length < N := by
      by_contra hk
      exact (hN s.trace.length (by omega) _).1 (by rw [hn, not_not.mp he])
    simp only [writeLoop, hlt, if_true, hcall, he, if_false]
    exact ih (by dsimp only; simp only [List.length_append, List.length_singleton]; omega)
  | case6 fuel s hge => simp [writeLoop, hge]

/-- When every `write` returns 0, the `writeblock` loop never ends: it runs out of any
fuel. -/
theorem writeLoop_of_zero (h0 : ∀ k r, env.call k r = .ok 0) :
    ∀ (fuel : ℕ) (s : IoState), s.sz < size → writeLoop env size fuel s = none
  | 0, _, _ => rfl
  | fuel + 1, s, hlt => by
    simp only [writeLoop, if_pos hlt, IoState.call, h0]
    exact writeLoop_of_zero h0 fuel _ hlt

end Runs

/-! ### The two functions -/

/-- The contract of `readblock`: the count is within `size` and is the sum of the counts
received, `buf[0, sz)` holds the file's bytes from `pos` on, and a short count has
`errno == 0` exactly when the last `read` returned 0, the end of the file. -/
def ReadblockContract (size pos : ℕ) (s s' : IoState) : Prop :=
  s'.sz ≤ size ∧ s'.sz = SysResult.total s'.trace ∧
    (∀ i < s'.sz, s'.buf i = s.file (pos + i)) ∧
    (s'.sz < size → (s'.errno = 0 ↔ s'.trace.getLast? = some (.ok 0)))

/-- The contract of `writeblock`: the count is within `size` and is the sum of the
counts received, the file holds `buf[0, sz)` from `pos` on, and a short count has
`errno ≠ 0`. -/
def WriteblockContract (size pos : ℕ) (s s' : IoState) : Prop :=
  s'.sz ≤ size ∧ s'.sz = SysResult.total s'.trace ∧
    (∀ i < s'.sz, s'.file (pos + i) = s.buf i) ∧ (s'.sz < size → s'.errno ≠ 0)

/-- The state the loops start from after a successful `lseek` keeps the invariants. -/
theorem IoState.Counted.start (s : IoState) (size pos : ℕ) :
    ({ s with sz := 0, errno := 0, trace := [], offset := pos } : IoState).Counted size pos :=
  ⟨Nat.zero_le _, rfl, rfl⟩

theorem IoState.ReadInto.start (s : IoState) (pos : ℕ) :
    ({ s with sz := 0, errno := 0, trace := [], offset := pos } : IoState).ReadInto pos s.file s.buf :=
  ⟨rfl, fun i hi => absurd hi (Nat.not_lt_zero i), fun _ _ => rfl⟩

theorem IoState.WriteFrom.start (s : IoState) (pos : ℕ) :
    ({ s with sz := 0, errno := 0, trace := [], offset := pos } : IoState).WriteFrom pos s.buf s.file :=
  ⟨rfl, fun i hi => absurd hi (Nat.not_lt_zero i), fun _ _ => rfl⟩

/-- For every valid answer of the kernel, `readblock` and `writeblock` keep their
contracts whenever they return. -/
theorem readblock_writeblock_spec (env : SysEnv) (henv : env.Valid) (size pos fuel : ℕ)
    (s : IoState) :
    (∀ s', readblock env size pos fuel s = some s' → ReadblockContract size pos s s') ∧
      (∀ s', writeblock env size pos fuel s = some s' → WriteblockContract size pos s s') := by
  constructor
  · intro s' h
    unfold readblock at h
    split at h
    · obtain ⟨hc, hr, herr⟩ :=
        readLoop_spec henv fuel _ h (IoState.Counted.start s size pos) (IoState.ReadInto.start s pos)
      exact ⟨hc.sz_le, hc.sz_eq, hr.buf_lt, herr⟩
    · rename_i e he
      cases h
      exact ⟨Nat.zero_le _, rfl, fun i hi => absurd hi (Nat.not_lt_zero i),
        fun _ => by simp [henv.seek_err e he]⟩
  · intro s' h
    unfold writeblock at h
    split at h
    · obtain ⟨hc, hw, herr⟩ :=
        writeLoop_spec henv fuel _ h (IoState.Counted.start s size pos) (IoState.WriteFrom.start s pos)
      exact ⟨hc.sz_le, hc.sz_eq, hw.file_lt, herr⟩
    · rename_i e he
      cases h
      exact ⟨Nat.zero_le _, rfl, fun i hi => absurd hi (Nat.not_lt_zero i),
        fun _ => henv.seek_err e he⟩

theorem readblock_writeblock_spec_full :
    SysEnv.Valid ⟨.ok 0, fun _ r => .ok r⟩ ∧
      (∀ s', readblock ⟨.ok 0, fun _ r => .ok r⟩ 2 0 2 ⟨0, 0, 0, fun _ => 0, fun _ => 7, []⟩ =
          some s' → ReadblockContract 2 0 ⟨0, 0, 0, fun _ => 0, fun _ => 7, []⟩ s') ∧
      (∀ s', writeblock ⟨.ok 0, fun _ r => .ok r⟩ 2 0 2 ⟨0, 0, 0, fun _ => 0, fun _ => 7, []⟩ =
          some s' → WriteblockContract 2 0 ⟨0, 0, 0, fun _ => 0, fun _ => 7, []⟩ s') :=
  have hv : SysEnv.Valid ⟨.ok 0, fun _ r => .ok r⟩ :=
    ⟨fun _ h => (by cases h), fun _ _ _ h => (by cases h), fun _ _ => le_rfl⟩
  ⟨hv, readblock_writeblock_spec _ hv 2 0 2 _⟩

/-- A kernel that moves every byte asked for fills the buffer in one call. -/
example : (readblock ⟨.ok 0, fun _ r => .ok r⟩ 2 0 2 ⟨0, 0, 0, fun _ => 0, fun _ => 7, []⟩).map
    (fun s => (s.sz, s.buf 1)) = some (2, 7) := rfl

/-- With finitely many interrupted `read`s, `readblock` returns: if none from the
`N`-th call on is interrupted, `N + size + 1` passes of the loop suffice. -/
theorem readblock_terminates (env : SysEnv) {N : ℕ}
    (hN : ∀ k ≥ N, ∀ r, env.call k r ≠ .err eintr) (size pos : ℕ) (s : IoState) :
    ∃ s', readblock env size pos (N + size + 1) s = some s' := by
  unfold readblock
  split
  · exact readLoop_terminates hN _ _ (by simp only [List.length_nil]; omega)
  · exact ⟨_, rfl⟩

/-- `writeblock` returns once finitely many `write`s are interrupted and finitely many
return 0. -/
theorem writeblock_terminates (env : SysEnv) {N : ℕ}
    (hN : ∀ k ≥ N, ∀ r, env.call k r ≠ .err eintr ∧ env.call k r ≠ .ok 0) (size pos : ℕ)
    (s : IoState) :
    ∃ s', writeblock env size pos (N + size + 1) s = some s' := by
  unfold writeblock
  split
  · exact writeLoop_terminates hN _ _ (by simp only [List.length_nil]; omega)
  · exact ⟨_, rfl⟩

/-- A device that answers every `write` with 0: no byte moved and no error. -/
def zeroWrites : SysEnv := ⟨.ok 0, fun _ _ => .ok 0⟩

/-- On a device that answers every `write` with 0, which POSIX allows and which has no
interrupted call at all, `writeblock` of one byte never returns: it runs out of every
fuel. -/
theorem writeblock_zero_writes_spin :
    zeroWrites.Valid ∧ (∀ k r, zeroWrites.call k r ≠ .err eintr) ∧
      ∀ fuel s, writeblock zeroWrites 1 0 fuel s = none :=
  ⟨⟨fun _ h => (by cases h), fun _ _ _ h => (by cases h), fun _ _ => Nat.zero_le _⟩,
    fun _ _ h => (by cases h),
    fun fuel _ => show writeLoop zeroWrites 1 fuel _ = none from
      writeLoop_of_zero (fun _ _ => rfl) fuel _ Nat.zero_lt_one⟩

/-! ### Writing a block and reading it back -/

section RoundTrip

variable {env : SysEnv} {size pos fuel : ℕ} {s s' : IoState}

/-- The bytes `writeblock` reports written are in the file from `pos` on. -/
theorem writeblock_file (henv : env.Valid) (h : writeblock env size pos fuel s = some s') :
    ∀ i < s'.sz, s'.file (pos + i) = s.buf i := by
  unfold writeblock at h
  split at h
  · exact (writeLoop_spec henv fuel _ h (IoState.Counted.start s size pos)
      (IoState.WriteFrom.start s pos)).2.1.file_lt
  · cases h
    exact fun i hi => absurd hi (Nat.not_lt_zero i)

/-- The bytes `readblock` reports read are the file's from `pos` on. -/
theorem readblock_buf (henv : env.Valid) (h : readblock env size pos fuel s = some s') :
    ∀ i < s'.sz, s'.buf i = s.file (pos + i) := by
  unfold readblock at h
  split at h
  · exact (readLoop_spec henv fuel _ h (IoState.Counted.start s size pos)
      (IoState.ReadInto.start s pos)).2.1.buf_lt
  · cases h
    exact fun i hi => absurd hi (Nat.not_lt_zero i)

end RoundTrip

/-- `writeblock` followed by `readblock` of the same place into another buffer:
for every valid answer of the kernel to each, with finitely many interrupted
calls and finitely many `write`s that return 0, both return, and every byte that
both report moved is read back as it was written. -/
theorem writeblock_readblock {envW envR : SysEnv} (hW : envW.Valid) (hR : envR.Valid) {N M : ℕ}
    (hN : ∀ k ≥ N, ∀ r, envW.call k r ≠ .err eintr ∧ envW.call k r ≠ .ok 0)
    (hM : ∀ k ≥ M, ∀ r, envR.call k r ≠ .err eintr) (size pos : ℕ) (s : IoState)
    (buf : ℕ → UInt8) :
    ∃ sw sr, writeblock envW size pos (N + size + 1) s = some sw ∧
      readblock envR size pos (M + size + 1) { sw with buf := buf } = some sr ∧
      ∀ i, i < sw.sz → i < sr.sz → sr.buf i = s.buf i := by
  obtain ⟨sw, hw⟩ := writeblock_terminates envW hN size pos s
  obtain ⟨sr, hr⟩ := readblock_terminates envR hM size pos { sw with buf := buf }
  refine ⟨sw, sr, hw, hr, fun i hiw hir => ?_⟩
  calc sr.buf i = sw.file (pos + i) := readblock_buf hR hr i hir
    _ = s.buf i := writeblock_file hW hw i hiw

/-- A kernel that moves every byte asked for, and fails a call for no byte. -/
def wholeCalls : SysEnv := ⟨.ok 0, fun _ r => if r = 0 then .err 5 else .ok r⟩

/-- The round trip through a kernel that moves every byte asked for. -/
theorem writeblock_readblock_whole :
    wholeCalls.Valid ∧ (∀ k ≥ 0, ∀ r, wholeCalls.call k r ≠ .err eintr ∧ wholeCalls.call k r ≠ .ok 0) ∧
      ∃ sw sr, writeblock wholeCalls 2 0 (0 + 2 + 1) ⟨0, 0, 0, fun _ => 7, fun _ => 0, []⟩ = some sw ∧
        readblock wholeCalls 2 0 (0 + 2 + 1) { sw with buf := fun _ => 0 } = some sr ∧
        ∀ i, i < sw.sz → i < sr.sz → sr.buf i = (⟨0, 0, 0, fun _ => 7, fun _ => 0, []⟩ : IoState).buf i :=
  have hv : wholeCalls.Valid :=
    ⟨fun _ h => (by cases h), fun _ r e h => (by by_cases hr : r = 0 <;> simp_all [wholeCalls]; omega),
      fun _ r => by by_cases hr : r = 0 <;> simp_all [wholeCalls]⟩
  have hn : ∀ k ≥ 0, ∀ r, wholeCalls.call k r ≠ .err eintr ∧ wholeCalls.call k r ≠ .ok 0 :=
    fun _ _ r => by by_cases hr : r = 0 <;> simp_all [wholeCalls, eintr]
  ⟨hv, hn, writeblock_readblock hv hv hn (fun k hk r => (hn k hk r).1) 2 0 _ _⟩

end Ddrescue
