import Mathlib.Data.List.Basic

/-!
# The interrupt flag: `sighandler`, `interrupted` and `signaled_exit`

`set_signals` (src/io.cc) clears `signum_` and installs `sighandler` for SIGHUP,
SIGINT and SIGTERM; the rescue loop polls `interrupted()` and, once it holds,
ends with `signaled_exit()`, which returns `128 + signum_` if `raise` comes back.
The handler's one statement `if( signum_ == 0 && signum > 0 ) signum_ = signum;`
reads `signum_` and then may write it. `set_signal` gives `sigaction` an empty
`sa_mask` and no `SA_NODEFER`, so while a handler runs its own signal is blocked
and any other handled signal may interrupt it, also between that read and that
write.

Handlers run on the stack of the main thread: the model keeps the running
handlers as a stack of frames, each before its read (`check`) or before its
write (`store`), and an event of a run either delivers a handled signal (a new
frame on top) or runs one step of the innermost handler. The main thread runs
only when no handler does. Over every run from `set_signals`, whatever the
interleaving:

* `signum_` is 0 or a positive signal that was delivered, so `signaled_exit`
  returns `128 + s` for such a signal (`sigRun_signum`);
* once the handler of a positive signal has started, `interrupted()` holds
  whenever the main thread runs again: no interrupt is lost
  (`sigRun_interrupted`);
* once `interrupted()` holds, it holds in every later state
  (`sigRun_interrupted_stable`).

The first positive signal is not always the one kept: one that interrupts the
first handler before its read is kept instead. Nor is `signum_` written once: a
handler interrupted between its read and its write stores its signal over the one
a nested handler stored, so `signum_` changes while `interrupted()` holds.
-/

namespace Ddrescue

/-- Where a running `sighandler` is: before reading `signum_`, or after reading 0
with `signum > 0`, before writing `signum_`. -/
inductive HandlerPc
  | check
  | store
  deriving DecidableEq, Repr

/-- A running `sighandler( signum )`. -/
structure HandlerFrame where
  /-- The handler's argument. -/
  signum : ℤ
  /-- The handler's next step. -/
  pc : HandlerPc
  deriving DecidableEq, Repr

/-- `signum_` and the handlers running, innermost first. -/
structure SigState where
  /-- `int volatile signum_`. -/
  signum : ℤ
  /-- The running handlers, innermost first. -/
  frames : List HandlerFrame
  deriving DecidableEq, Repr

/-- An event of a run. -/
inductive SigEvent
  /-- The kernel delivers a signal whose handler is `sighandler`. -/
  | deliver (signum : ℤ)
  /-- The innermost running handler takes its next step. -/
  | handlerStep
  deriving DecidableEq, Repr

/-- One event. A signal whose handler is running is blocked, so it is not
delivered (it stays pending, to be delivered by a later event); a handler step
needs a running handler. -/
def sigStep (st : SigState) : SigEvent → Option SigState
  | .deliver s =>
    if st.frames.any (·.signum = s) then none
    else some ⟨st.signum, ⟨s, .check⟩ :: st.frames⟩
  | .handlerStep =>
    match st.frames with
    | [] => none
    | f :: rest =>
      match f.pc with
      | .check =>
        some (if st.signum = 0 ∧ 0 < f.signum then ⟨st.signum, ⟨f.signum, .store⟩ :: rest⟩
          else ⟨st.signum, rest⟩)
      | .store => some ⟨f.signum, rest⟩

/-- A run of events from a state. -/
def sigRun (st : SigState) (evs : List SigEvent) : Option SigState := evs.foldlM sigStep st

/-- `set_signals`: `signum_ = 0`, with no handler running. -/
def setSignals : SigState := ⟨0, []⟩

/-- `interrupted()`. -/
def interrupted (st : SigState) : Bool := 0 < st.signum

/-- `signaled_exit()` when `raise` comes back: `128 + signum_`. -/
def signaledExit (st : SigState) : ℤ := 128 + st.signum

/-- The signals a run delivers. -/
def SigEvent.delivered : List SigEvent → List ℤ
  | [] => []
  | .deliver s :: evs => s :: delivered evs
  | .handlerStep :: evs => delivered evs

theorem SigEvent.mem_delivered {s : ℤ} {evs : List SigEvent} (h : SigEvent.deliver s ∈ evs) :
    s ∈ SigEvent.delivered evs := by
  induction evs with
  | nil => cases h
  | cons e evs ih =>
    cases e <;> rcases List.mem_cons.mp h with h | h <;>
      simp_all [SigEvent.delivered]

/-! ## What one event does -/

section Step

variable {st st' : SigState} {e : SigEvent}

/-- Everything one event can do: start a handler, pass a handler's test, end a
handler whose test fails, or end a handler with its write. -/
theorem sigStep_cases (h : sigStep st e = some st') :
    (∃ s, e = .deliver s ∧ st' = ⟨st.signum, ⟨s, .check⟩ :: st.frames⟩) ∨
    (∃ f rest, e = .handlerStep ∧ st.frames = f :: rest ∧ f.pc = .check ∧ st.signum = 0 ∧
      0 < f.signum ∧ st' = ⟨st.signum, ⟨f.signum, .store⟩ :: rest⟩) ∨
    (∃ f rest, e = .handlerStep ∧ st.frames = f :: rest ∧ f.pc = .check ∧
      ¬(st.signum = 0 ∧ 0 < f.signum) ∧ st' = ⟨st.signum, rest⟩) ∨
    (∃ f rest, e = .handlerStep ∧ st.frames = f :: rest ∧ f.pc = .store ∧
      st' = ⟨f.signum, rest⟩) := by
  cases e with
  | deliver s =>
    simp only [sigStep] at h
    split at h
    · cases h
    · exact .inl ⟨s, rfl, (Option.some.inj h).symm⟩
  | handlerStep =>
    obtain ⟨signum, frames⟩ := st
    cases frames with
    | nil => cases h
    | cons f rest =>
      obtain ⟨fs, pc⟩ := f
      cases pc with
      | check =>
        simp only [sigStep, Option.some.injEq] at h
        split at h
        · rename_i hc
          exact .inr (.inl ⟨_, rest, rfl, rfl, rfl, hc.1, hc.2, h.symm⟩)
        · rename_i hc
          exact .inr (.inr (.inl ⟨_, rest, rfl, rfl, rfl, hc, h.symm⟩))
      | store =>
        simp only [sigStep, Option.some.injEq] at h
        exact .inr (.inr (.inr ⟨_, rest, rfl, rfl, rfl, h.symm⟩))

/-- What holds of every state of a run whose delivered signals lie in `D`:
`signum_` is 0 or a positive signal of `D`, every running handler's signal is in
`D`, and a handler about to write has a positive signal. -/
structure SigInv (D : List ℤ) (st : SigState) : Prop where
  signum : st.signum = 0 ∨ 0 < st.signum ∧ st.signum ∈ D
  frames : ∀ f ∈ st.frames, f.signum ∈ D
  store : ∀ f ∈ st.frames, f.pc = .store → 0 < f.signum

/-- A positive signal is kept in `signum_`, or its handler is still running. -/
def Pending (st : SigState) : Prop := 0 < st.signum ∨ ∃ f ∈ st.frames, 0 < f.signum

/-- Ending the innermost handler keeps the invariant for the handlers below it,
with any value of `signum_` that the invariant allows. -/
theorem SigInv.pop {D : List ℤ} {f : HandlerFrame} {rest : List HandlerFrame}
    (hinv : SigInv D st) (hf : st.frames = f :: rest) {n : ℤ} (hn : n = 0 ∨ 0 < n ∧ n ∈ D) :
    SigInv D ⟨n, rest⟩ :=
  ⟨hn, fun g hg => hinv.frames g (hf ▸ List.mem_cons_of_mem _ hg),
    fun g hg => hinv.store g (hf ▸ List.mem_cons_of_mem _ hg)⟩

theorem SigInv.step {D : List ℤ} (hinv : SigInv D st) (hD : ∀ s, e = .deliver s → s ∈ D)
    (h : sigStep st e = some st') : SigInv D st' := by
  rcases sigStep_cases h with ⟨s, rfl, rfl⟩ | ⟨f, rest, -, hf, -, -, hpos, rfl⟩ |
      ⟨f, rest, -, hf, -, -, rfl⟩ | ⟨f, rest, -, hf, hpc, rfl⟩
  · exact ⟨hinv.signum, List.forall_mem_cons.mpr ⟨hD _ rfl, hinv.frames⟩,
      List.forall_mem_cons.mpr ⟨nofun, hinv.store⟩⟩
  · have hrest := hinv.pop hf hinv.signum
    exact ⟨hinv.signum, List.forall_mem_cons.mpr ⟨hinv.frames f (hf ▸ List.mem_cons_self _ _),
      hrest.frames⟩, List.forall_mem_cons.mpr ⟨fun _ => hpos, hrest.store⟩⟩
  · exact hinv.pop hf hinv.signum
  · -- the write stores the positive signal of a running handler
    have hfm : f ∈ st.frames := hf ▸ List.mem_cons_self _ _
    exact hinv.pop hf (.inr ⟨hinv.store f hfm hpc, hinv.frames f hfm⟩)

/-- A handler whose test fails finds `signum_` already set, or has a signal that
is not positive; a write stores a positive signal. So a pending positive signal
stays pending. -/
theorem Pending.step {D : List ℤ} (hinv : SigInv D st) (hp : Pending st)
    (h : sigStep st e = some st') : Pending st' := by
  rcases sigStep_cases h with ⟨s, rfl, rfl⟩ | ⟨f, rest, -, hf, -, -, hpos, rfl⟩ |
      ⟨f, rest, -, hf, -, hfail, rfl⟩ | ⟨f, rest, -, hf, hpc, rfl⟩
  · exact hp.imp_right fun ⟨g, hg, hgpos⟩ => ⟨g, List.mem_cons_of_mem _ hg, hgpos⟩
  · exact .inr ⟨⟨f.signum, .store⟩, List.mem_cons_self _ _, hpos⟩
  · rcases hp with hpos | ⟨g, hg, hgpos⟩
    · exact .inl hpos
    · rcases hinv.signum with h0 | ⟨hpos, -⟩
      · -- `signum_` is 0, so the handler that ends has a signal that is not positive
        rw [hf] at hg
        rcases List.mem_cons.mp hg with rfl | hg
        · exact absurd ⟨h0, hgpos⟩ hfail
        · exact .inr ⟨g, hg, hgpos⟩
      · exact .inl hpos
  · exact .inl (hinv.store f (hf ▸ List.mem_cons_self _ _) hpc)

/-- A set `signum_` stays positive: only a write changes it, and a write stores the
positive signal of its handler. -/
theorem SigInv.signum_pos_step {D : List ℤ} (hinv : SigInv D st) (hpos : 0 < st.signum)
    (h : sigStep st e = some st') : 0 < st'.signum := by
  rcases sigStep_cases h with ⟨_, -, rfl⟩ | ⟨_, _, -, -, -, -, -, rfl⟩ |
      ⟨_, _, -, -, -, -, rfl⟩ | ⟨f, _, -, hf, hpc, rfl⟩
  -- a delivery and a test leave `signum_` as it is
  · exact hpos
  · exact hpos
  · exact hpos
  · exact hinv.store f (hf ▸ List.mem_cons_self _ _) hpc

end Step

/-! ## Runs -/

/-- A property that every event of a run keeps holds at the end of the run. -/
theorem sigRun_of_step (P : SigState → Prop) :
    ∀ (evs : List SigEvent) {st st' : SigState},
      (∀ e ∈ evs, ∀ {s s'}, P s → sigStep s e = some s' → P s') →
      sigRun st evs = some st' → P st → P st'
  | [], _, _, _, h, hp => by
    cases h
    exact hp
  | e :: evs, _, _, hstep, h, hp => by
    obtain ⟨s1, h1, h2⟩ := Option.bind_eq_some.mp h
    exact sigRun_of_step P evs (fun e' he' => hstep e' (List.mem_cons_of_mem _ he')) h2
      (hstep e (List.mem_cons_self _ _) hp h1)

theorem sigRun_append {st st' : SigState} {evs evs' : List SigEvent}
    (h : sigRun st (evs ++ evs') = some st') :
    ∃ st1, sigRun st evs = some st1 ∧ sigRun st1 evs' = some st' := by
  unfold sigRun at h
  rw [List.foldlM_append] at h
  exact Option.bind_eq_some.mp h

/-- Every run keeps `SigInv` for a `D` that holds all the signals it delivers. -/
theorem SigInv.run {D : List ℤ} {evs : List SigEvent} (hD : ∀ s, SigEvent.deliver s ∈ evs → s ∈ D)
    {st st' : SigState} (h : sigRun st evs = some st') (hinv : SigInv D st) : SigInv D st' :=
  sigRun_of_step (SigInv D) evs (fun _ he _ _ hs hstep => hs.step (fun s hs => hD s (hs ▸ he)) hstep)
    h hinv

/-- Over every run from `set_signals`, `signum_` is 0 or a positive signal the run
delivered; so `interrupted()` holds exactly when it is such a signal, and
`signaled_exit` returns `128 + s` for it. -/
theorem sigRun_signum {evs : List SigEvent} {st : SigState} (h : sigRun setSignals evs = some st) :
    (interrupted st = false ∧ st.signum = 0) ∨
      (interrupted st = true ∧ st.signum ∈ SigEvent.delivered evs ∧
        signaledExit st = 128 + st.signum ∧ 128 < signaledExit st) := by
  have hinv : SigInv (SigEvent.delivered evs) st :=
    SigInv.run (fun _ => SigEvent.mem_delivered) h ⟨.inl rfl, by simp [setSignals], by simp [setSignals]⟩
  rcases hinv.signum with h0 | ⟨hpos, hmem⟩
  · exact .inl ⟨by simp [interrupted, h0], h0⟩
  · exact .inr ⟨by simp [interrupted, hpos], hmem, rfl, by unfold signaledExit; omega⟩

/-- The run that delivers SIGINT and then runs its handler to the end keeps it. -/
theorem sigRun_signum_sigint :
    sigRun setSignals [.deliver 2, .handlerStep, .handlerStep] = some ⟨2, []⟩ ∧
      ((interrupted ⟨2, []⟩ = false ∧ (⟨2, []⟩ : SigState).signum = 0) ∨
        (interrupted ⟨2, []⟩ = true ∧ (⟨2, []⟩ : SigState).signum ∈
          SigEvent.delivered [.deliver 2, .handlerStep, .handlerStep] ∧
          signaledExit ⟨2, []⟩ = 128 + (⟨2, []⟩ : SigState).signum ∧ 128 < signaledExit ⟨2, []⟩)) :=
  have h : sigRun setSignals [.deliver 2, .handlerStep, .handlerStep] = some ⟨2, []⟩ := by decide
  ⟨h, sigRun_signum h⟩

/-- No interrupt is lost: in every run from `set_signals` that delivers a positive
signal, `interrupted()` holds at every later point where no handler runs, that is
whenever the main thread polls it. -/
theorem sigRun_interrupted {pre post : List SigEvent} {s : ℤ} {st : SigState}
    (h : sigRun setSignals (pre ++ .deliver s :: post) = some st) (hs : 0 < s)
    (hidle : st.frames = []) : interrupted st = true := by
  let D := SigEvent.delivered (pre ++ .deliver s :: post)
  have hD : ∀ t, SigEvent.deliver t ∈ pre ++ .deliver s :: post → t ∈ D :=
    fun _ => SigEvent.mem_delivered
  obtain ⟨st1, h1, h2⟩ := sigRun_append h
  obtain ⟨st2, h2, h3⟩ := Option.bind_eq_some.mp h2
  have hinv1 : SigInv D st1 := SigInv.run (fun t ht => hD t (List.mem_append_left _ ht)) h1
    ⟨.inl rfl, by simp [setSignals], by simp [setSignals]⟩
  have hinv2 : SigInv D st2 :=
    hinv1.step (fun t ht => hD t (ht ▸ List.mem_append_right _ (List.mem_cons_self _ _))) h2
  -- the handler of `s` has started: `s` is pending
  have hp2 : Pending st2 := by
    rcases sigStep_cases h2 with ⟨t, ht, rfl⟩ | ⟨_, _, ht, -⟩ | ⟨_, _, ht, -⟩ | ⟨_, _, ht, -⟩
    · cases ht
      exact .inr ⟨⟨s, .check⟩, List.mem_cons_self _ _, hs⟩
    all_goals cases ht
  have hfin := sigRun_of_step (fun st => SigInv D st ∧ Pending st) post
    (fun e he _ _ hs hstep =>
      ⟨hs.1.step (fun t ht => hD t (ht ▸ List.mem_append_right _ (List.mem_cons_of_mem _ he)))
        hstep, hs.2.step hs.1 hstep⟩) h3 ⟨hinv2, hp2⟩
  rcases hfin.2 with hpos | ⟨f, hf, -⟩
  · simp [interrupted, hpos]
  · simp [hidle] at hf

/-- SIGHUP, then SIGINT once its handler has ended: the main thread sees the
interrupt. -/
theorem sigRun_interrupted_hup :
    sigRun setSignals ([.deliver 1, .handlerStep, .handlerStep] ++ .deliver 2 :: [.handlerStep]) =
      some ⟨1, []⟩ ∧ (0 : ℤ) < 2 ∧ (⟨1, []⟩ : SigState).frames = [] ∧
      interrupted ⟨1, []⟩ = true :=
  have h : sigRun setSignals ([.deliver 1, .handlerStep, .handlerStep] ++ .deliver 2 :: [.handlerStep]) =
      some ⟨1, []⟩ := by decide
  ⟨h, by decide, rfl, sigRun_interrupted h (by decide) rfl⟩

/-- Once `interrupted()` holds in a run from `set_signals`, it holds in every later
state of the run, whatever the later events. -/
theorem sigRun_interrupted_stable {pre post : List SigEvent} {st1 st2 : SigState}
    (h1 : sigRun setSignals pre = some st1) (h2 : sigRun st1 post = some st2)
    (hint : interrupted st1 = true) : interrupted st2 = true := by
  let D := SigEvent.delivered (pre ++ post)
  have hD : ∀ t, SigEvent.deliver t ∈ pre ++ post → t ∈ D := fun _ => SigEvent.mem_delivered
  have hinv1 : SigInv D st1 := SigInv.run (fun t ht => hD t (List.mem_append_left _ ht)) h1
    ⟨.inl rfl, by simp [setSignals], by simp [setSignals]⟩
  have hfin := sigRun_of_step (fun st => SigInv D st ∧ 0 < st.signum) post
    (fun e he _ _ hs hstep =>
      ⟨hs.1.step (fun t ht => hD t (ht ▸ List.mem_append_right _ he)) hstep,
        hs.1.signum_pos_step hs.2 hstep⟩) h2 ⟨hinv1, by simpa [interrupted] using hint⟩
  simpa [interrupted] using hfin.2

/-- SIGINT interrupts the handler of SIGHUP between its read and its write and stores
2; the handler of SIGHUP then stores 1 over it, and `interrupted()` still holds. -/
theorem sigRun_interrupted_stable_overwrite :
    sigRun setSignals [.deliver 1, .handlerStep, .deliver 2, .handlerStep, .handlerStep] =
      some ⟨2, [⟨1, .store⟩]⟩ ∧
      sigRun ⟨2, [⟨1, .store⟩]⟩ [.handlerStep] = some ⟨1, []⟩ ∧
      interrupted ⟨2, [⟨1, .store⟩]⟩ = true ∧ interrupted ⟨1, []⟩ = true :=
  have h1 : sigRun setSignals [.deliver 1, .handlerStep, .deliver 2, .handlerStep, .handlerStep] =
      some ⟨2, [⟨1, .store⟩]⟩ := by decide
  have h2 : sigRun ⟨2, [⟨1, .store⟩]⟩ [.handlerStep] = some ⟨1, []⟩ := by decide
  have hint : interrupted ⟨2, [⟨1, .store⟩]⟩ = true := by decide
  ⟨h1, h2, hint, sigRun_interrupted_stable h1 h2 hint⟩

/- SIGINT interrupts the handler of SIGHUP before its read: SIGINT is kept,
though SIGHUP came first. -/
example : sigRun setSignals [.deliver 1, .deliver 2, .handlerStep, .handlerStep, .handlerStep] =
    some ⟨2, []⟩ := by decide

end Ddrescue
