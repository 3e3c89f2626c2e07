import Ddrescue.Loop

/-!
# `change_types`: rewriting statuses through a table

`ddrescuelog --change-types=T1,T2` reads two strings of status characters
with `set_types` and, after `verify_logname_and_domain`, rewrites every sblock of
the domain whose status occurs in `T1` to the status at the same index of `T2`,
with `T2` right-padded with its last character to the length of `T1`.

`set_types` accepts exactly one comma between two nonempty strings of status
characters (`setTypes_eq_some_iff`). The loop of `change_types` never goes back,
so each byte is rewritten at most once, from its original status, through the
table (`changeTypes_of_table`). It does not reach every sblock of the domain: a
rewritten sblock that `change_sblock_status` merges with the sblock before moves
the next sblock onto the index the loop has just passed
(`changeTypes_skips_after_join`).
-/

namespace Ddrescue

/-- The loop of `set_types( arg, types1, types2 )` over the characters of
`arg`: the characters before the comma go to `types1`, those after it to
`types2`. A second comma or a character that names no status is an error
(`none`). -/
def setTypesLoop : List Char → Bool → List Char → List Char → Option (List Char × List Char)
  | [], _, t1, t2 => some (t1, t2)
  | ch :: rest, commaFound, t1, t2 =>
    if ch = ',' then
      if commaFound then none else setTypesLoop rest true t1 t2
    else if !isstatus ch then none
    else if commaFound then setTypesLoop rest commaFound t1 (t2 ++ [ch])
    else setTypesLoop rest commaFound (t1 ++ [ch]) t2

/-- `set_types( arg, types1, types2 )`: the two strings, `types2` padded with
its last character to the length of `types1`, or `none` when it exits with
status 1 ("Invalid type for 'change-types' option."). -/
def setTypes (arg : List Char) : Option (List Char × List Char) :=
  match setTypesLoop arg false [] [] with
  | none => none
  | some (t1, t2) =>
    if t1.length = 0 ∨ t2.length = 0 then none
    else some (t1, t2 ++ List.replicate (t1.length - t2.length) (t2.getLastD ','))

theorem isstatus_comma : isstatus ',' = false := rfl

/-- After the comma, the loop appends the rest when all of it names statuses. -/
theorem setTypesLoop_true (arg t1 t2 : List Char) :
    setTypesLoop arg true t1 t2 = if arg.all isstatus then some (t1, t2 ++ arg) else none := by
  induction arg generalizing t2 with
  | nil => simp [setTypesLoop]
  | cons ch rest ih =>
    by_cases hc : ch = ','
    · subst hc
      simp [setTypesLoop, isstatus_comma]
    · by_cases hs : isstatus ch = true <;> simp [setTypesLoop, hc, hs, ih]

/-- Before the comma, the loop collects a prefix free of commas. -/
theorem setTypesLoop_false_append (pre rest t1 t2 : List Char) (hpre : ',' ∉ pre) :
    setTypesLoop (pre ++ rest) false t1 t2 =
      if pre.all isstatus then setTypesLoop rest false (t1 ++ pre) t2 else none := by
  induction pre generalizing t1 with
  | nil => simp
  | cons ch pre ih =>
    have hc : ch ≠ ',' := fun h => hpre (h ▸ List.mem_cons_self _ _)
    rw [List.mem_cons, not_or] at hpre
    by_cases hs : isstatus ch = true <;> simp [setTypesLoop, hc, hs, ih _ hpre.2]

theorem setTypesLoop_false_of_not_mem {arg : List Char} (t1 t2 : List Char) (h : ',' ∉ arg) :
    setTypesLoop arg false t1 t2 = if arg.all isstatus then some (t1 ++ arg, t2) else none := by
  simpa [setTypesLoop] using setTypesLoop_false_append arg [] t1 t2 h

theorem exists_first_comma {arg : List Char} (h : ',' ∈ arg) :
    ∃ pre post, arg = pre ++ ',' :: post ∧ ',' ∉ pre := by
  induction arg with
  | nil => cases h
  | cons ch rest ih =>
    by_cases hc : ch = ','
    · exact ⟨[], rest, by rw [hc]; rfl, by simp⟩
    · obtain ⟨pre, post, rfl, hpre⟩ := ih ((List.mem_cons.mp h).resolve_left (Ne.symm hc))
      exact ⟨ch :: pre, post, rfl, by simp [Ne.symm hc, hpre]⟩

/-- On an argument with a first comma, the loop collects `types1` before it and
`types2` after it. -/
theorem setTypesLoop_comma {pre post : List Char} (hpre : ',' ∉ pre) :
    setTypesLoop (pre ++ ',' :: post) false [] [] =
      if pre.all isstatus ∧ post.all isstatus then some (pre, post) else none := by
  rw [setTypesLoop_false_append _ _ _ _ hpre]
  by_cases hp : pre.all isstatus <;> by_cases hq : post.all isstatus <;>
    simp [hp, hq, setTypesLoop, setTypesLoop_true]

/-- What `set_types` accepts: exactly one comma, between two nonempty strings
of status characters; `types2` comes back padded to the length of `types1`. -/
theorem setTypes_eq_some_iff (arg t1 t2 : List Char) :
    setTypes arg = some (t1, t2) ↔ ∃ T2, arg = t1 ++ ',' :: T2 ∧ t1 ≠ [] ∧ T2 ≠ [] ∧
      (∀ c ∈ t1 ++ T2, isstatus c = true) ∧
      t2 = T2 ++ List.replicate (t1.length - T2.length) (T2.getLastD ',') := by
  unfold setTypes
  constructor
  · intro h
    by_cases hcomma : ',' ∈ arg
    · obtain ⟨pre, post, rfl, hpre⟩ := exists_first_comma hcomma
      by_cases hst : pre.all isstatus ∧ post.all isstatus
      · simp only [setTypesLoop_comma hpre, if_pos hst] at h
        split_ifs at h with hne
        cases h
        simp only [List.length_eq_zero, not_or] at hne
        refine ⟨post, rfl, hne.1, hne.2, fun c hc => ?_, rfl⟩
        rcases List.mem_append.mp hc with hc | hc
        · exact List.all_eq_true.mp hst.1 c hc
        · exact List.all_eq_true.mp hst.2 c hc
      · simp only [setTypesLoop_comma hpre, if_neg hst] at h
        cases h
    · -- without a comma everything goes to `types1`, and `types2` stays empty
      rw [setTypesLoop_false_of_not_mem _ _ hcomma] at h
      split_ifs at h
      simp at h
  · rintro ⟨T2, rfl, hne1, hne2, hst, rfl⟩
    have hpre : ',' ∉ t1 := fun h => by simpa [isstatus_comma] using hst _ (List.mem_append_left _ h)
    have h1 : t1.all isstatus = true :=
      List.all_eq_true.mpr fun c hc => hst c (List.mem_append_left _ hc)
    have h2 : T2.all isstatus = true :=
      List.all_eq_true.mpr fun c hc => hst c (List.mem_append_right _ hc)
    simp [setTypesLoop_comma hpre, h1, h2, hne1, hne2]

/-- The body of the loop of `change_types` on sblock `i`, `sb`, which the
domain includes: `types1.find( sb.status() )`, and on a hit
`change_sblock_status( i, Sblock::Status( types2[j] ) )`. A character of
`types2` that names no status cannot reach here, since `set_types` accepts only
status characters; the model panics on it. -/
def changeTypesBody (types1 types2 : List Char) (sbs : List Sblock) (i : ℕ) (sb : Sblock) :
    Option (List Sblock × ℕ) :=
  let j := types1.indexOf sb.status.toChar
  if j < types1.length then
    (Status.ofChar (types2.getD j ',')).map fun st => (changeSblockStatus sbs i st, i + 1)
  else some (sbs, i + 1)

/-- `change_types`: `verify_logname_and_domain`, then the vector written after the
loop and `compact_sblock_vector`; `none` when the Logbook panics. -/
def changeTypes (A : Logbook) (types1 types2 : List Char) : Option (Verified (List Sblock)) :=
  if A.domain.size = 0 then some .emptyDomain
  else (forSblocks A.domain (changeTypesBody types1 types2) (loopFuel A.sblocks) A.sblocks 0).map
    fun sbs => .ok (compactSblockVector sbs)

/-- The status the table `types1`, `types2` gives byte `p` of `A`: a byte of the
domain whose original status occurs in `types1` takes the status at the index
of its first occurrence in `types2`; every other byte keeps its status. -/
def changedStatus (A : Logbook) (types1 types2 : List Char) (p : ℕ) : Option Status :=
  match statusAt A.sblocks p with
  | some c =>
    if A.domain.includesPos p = true ∧ c.toChar ∈ types1 then
      Status.ofChar (types2.getD (types1.indexOf c.toChar) ',')
    else some c
  | none => none

/-- On a hit, `Sblock::Status( types2[j] )` names a status: every character of a
table `set_types` accepts does, and `types2` is no shorter than `types1`. -/
theorem ofChar_getD_isSome {types1 types2 : List Char} (hty : ∀ c ∈ types2, isstatus c = true)
    (hlen : types1.length ≤ types2.length) {c : Char} (hc : c ∈ types1) :
    ∃ st, Status.ofChar (types2.getD (types1.indexOf c) ',') = some st := by
  have hlt : types1.indexOf c < types2.length := lt_of_lt_of_le (List.indexOf_lt_length.mpr hc) hlen
  have hmem : types2.getD (types1.indexOf c) ',' ∈ types2 := by
    rw [List.getD_eq_getElem?_getD, List.getElem?_eq_getElem hlt]
    exact List.getElem_mem hlt
  exact Option.isSome_iff_exists.mp (hty _ hmem)

/-- What holds between two passes of the loop of `change_types` on `A`: the vector
keeps to the edges of `A`'s sblocks, every byte has its original status or the one
the table gives it, and the bytes from the current sblock on have their original
status. -/
structure ChangeInv (A : Logbook) (types1 types2 : List Char) (s : ℕ)
    (done todo : List Sblock) : Prop where
  /-- The vector tiles `A`'s interval, and the sblocks to come keep to `A`'s edges. -/
  onEdges : OnEdges (boundaries A.sblocks) s (tileEnd s A.sblocks) done todo
  /-- Each byte is unchanged or rewritten through the table. -/
  changed : ∀ p, statusAt (done ++ todo) p = statusAt A.sblocks p ∨
    statusAt (done ++ todo) p = changedStatus A types1 types2 p
  /-- The bytes not passed yet are unchanged. -/
  pending : ∀ p, tileEnd s done ≤ p → statusAt (done ++ todo) p = statusAt A.sblocks p

section ChangeLoop

variable {A : Logbook} {types1 types2 : List Char} {s : ℕ} {done tl : List Sblock} {sb : Sblock}

/-- Passing an sblock whose bytes keep their status keeps the invariant. -/
theorem ChangeInv.advance (h : ChangeInv A types1 types2 s done (sb :: tl)) :
    ChangeInv A types1 types2 s (done ++ [sb]) tl := by
  have heq : done ++ [sb] ++ tl = done ++ sb :: tl := by simp
  have hpos := (Tiles_append.mp h.onEdges.tiles).2.1
  refine ⟨h.onEdges.advance.1, heq ▸ h.changed, fun p hp => heq ▸ h.pending p ?_⟩
  rw [tileEnd_append, tileEnd_cons, tileEnd_nil] at hp
  omega

/-- Every pass of the `change_types` body on an sblock of the domain keeps the
invariant and moves the loop on: the sblock's bytes still have their original status,
so a hit rewrites them through the table, and the merges of `change_sblock_status`
change no byte and leave the index past the sblock. -/
theorem ChangeInv.step (hty : ∀ c ∈ types2, isstatus c = true)
    (hlen : types1.length ≤ types2.length) (h : ChangeInv A types1 types2 s done (sb :: tl))
    (hin : A.domain.includes sb.toBlock = true) :
    ∃ done' todo' k, changeTypesBody types1 types2 (done ++ sb :: tl) done.length sb =
        some (done' ++ todo', done'.length + k) ∧ (k = 0 ∨ todo' = []) ∧
      ChangeInv A types1 types2 s done' todo' ∧
      headMeasure (tileEnd s A.sblocks) todo' < headMeasure (tileEnd s A.sblocks) (sb :: tl) := by
  have hpos := (Tiles_append.mp h.onEdges.tiles).2.1
  have horig : ∀ p, sb.pos ≤ p → p < sb.pos + sb.size →
      statusAt A.sblocks p = some sb.status ∧ A.domain.includesPos p = true := fun p h1 h2 =>
    ⟨(h.pending p (hpos ▸ h1)).symm.trans (statusAt_of_mem h.onEdges.tiles (by simp) ⟨h1, h2⟩),
      Domain.includesPos_of_includes hin ⟨h1, h2⟩⟩
  unfold changeTypesBody
  dsimp only
  split_ifs with hj
  · have hmem : sb.status.toChar ∈ types1 := List.indexOf_lt_length.mp hj
    obtain ⟨st, hst⟩ := ofChar_getD_isSome hty hlen hmem
    rw [hst, Option.map_some']
    obtain ⟨ht, hE, hs'⟩ := changeSblockStatus_spec h.onEdges.tiles st
    obtain ⟨done', todo', k, hv, hk, hk0, hsuf⟩ := changeSblockStatus_split done tl sb st
    rw [hv] at ht hE hs'
    have hend := end_le_tileEnd_of_suffix h.onEdges.tiles ht hE hsuf
    obtain ⟨hb', hadv⟩ := h.onEdges.of_suffix ht hE hsuf
    refine ⟨done', todo', k, by rw [hv, hk], hk0, ⟨hb', fun p => ?_, fun p hp => ?_⟩,
      hb'.headMeasure_lt hadv⟩
    · -- the bytes of `sb` take the status the table gives their original one
      rw [hs' p]
      split_ifs with hp
      · refine .inr ?_
        simp only [changedStatus, (horig p hp.1 hp.2).1, (horig p hp.1 hp.2).2, hmem, and_self,
          if_true, hst]
      · exact h.changed p
    · rw [hs' p, if_neg (by omega)]
      exact h.pending p (by omega)
  · obtain ⟨hb', hadv⟩ := h.onEdges.advance
    exact ⟨done ++ [sb], tl, 0, by simp, .inl rfl, h.advance, hb'.headMeasure_lt hadv⟩

end ChangeLoop

/-- `change_types` with a table of status characters whose second string is no
shorter than the first (every table `set_types` returns, and that of
`--invert-logfile`), on a valid logbook with a nonempty domain: it ends without
panicking and writes a tiling in which every byte has its original status or the
status the table gives that one. No byte is rewritten twice. -/
theorem changeTypes_of_table {A : Logbook} (hA : A.Valid) (hne : A.domain.blocks ≠ [])
    {types1 types2 : List Char} (hty : ∀ c ∈ types2, isstatus c = true)
    (hlen : types1.length ≤ types2.length) :
    ∃ r, changeTypes A types1 types2 = some (.ok r) ∧ (∃ s, Tiles s r) ∧
      ∀ p, statusAt r p = statusAt A.sblocks p ∨ statusAt r p = changedStatus A types1 types2 p := by
  obtain ⟨s, hs⟩ := hA.tiles
  have h0 : ChangeInv A types1 types2 s [] A.sblocks :=
    ⟨⟨hs, rfl, fun x hx => edges_mem_boundaries hx⟩, fun p => .inl rfl, fun p _ => rfl⟩
  obtain ⟨r, hr, hrt, hrs⟩ := forSblocks_of_invariant (ChangeInv A types1 types2 s)
    (headMeasure (tileEnd s A.sblocks))
    (fun r => Tiles s r ∧ ∀ p, statusAt r p = statusAt A.sblocks p ∨
      statusAt r p = changedStatus A types1 types2 p)
    (fun _ _ _ h hin => h.step hty hlen hin)
    (fun _ _ _ h _ _ => ⟨h.advance, h.advance.onEdges.headMeasure_lt h.onEdges.advance.2⟩)
    (fun _ h => ⟨by simpa using h.onEdges.tiles, by simpa using h.changed⟩)
    (fun _ _ _ h _ _ => ⟨h.onEdges.tiles, h.changed⟩) h0
    (show _ < loopFuel A.sblocks from Nat.lt_succ_of_le (headMeasure_le hs))
  obtain ⟨hct, -, hcs⟩ := compactSblockVector_spec hrt
  have := hA.domain.size_pos hne
  refine ⟨compactSblockVector r, ?_, ⟨s, hct⟩, fun p => hcs p ▸ hrs p⟩
  rw [changeTypes, if_neg (by omega)]
  simp only [List.nil_append, List.length_nil] at hr
  rw [hr]
  rfl

/-- A rewritten sblock that joins the sblock before hides the next one from the loop:
with `?*,++`, sblock 1, non-tried, turns finished and merges with sblock 0, so index 2
lies past the end of the vector and the non-trimmed sblock `[20, 30)` keeps its status,
where the table gives its bytes finished. -/
theorem changeTypes_skips_after_join :
    let A : Logbook := ⟨[⟨⟨0, 10⟩, .finished⟩, ⟨⟨10, 10⟩, .nonTried⟩, ⟨⟨20, 10⟩, .nonTrimmed⟩],
      ⟨[⟨0, 30⟩]⟩⟩
    A.check = true ∧ setTypes "?*,++".toList = some ("?*".toList, "++".toList) ∧
      changedStatus A "?*".toList "++".toList 25 = some .finished ∧
      changeTypes A "?*".toList "++".toList =
        some (.ok [⟨⟨0, 20⟩, .finished⟩, ⟨⟨20, 10⟩, .nonTrimmed⟩]) := by
  decide

/- The mapping `"?+,+-"` rewrites non-tried to finished and stops there. -/
example :
    (setTypes "?+,+-".toList).bind (fun t => changeTypes ⟨[⟨⟨0, 10⟩, .nonTried⟩], ⟨[⟨0, 10⟩]⟩⟩ t.1 t.2) =
      some (.ok [⟨⟨0, 10⟩, .finished⟩]) := by
  decide

end Ddrescue
