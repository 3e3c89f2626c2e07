import Ddrescue.Logbook

/-!
# The Logbook mutators

The methods through which ddrescuelog changes a sblock vector. Their code
(`logbook.cc`, `block.cc`) is not part of this repository, so each is modelled
from the spec (§4.2) and from how `ddrescuelog.cc` calls it. Each comes with
its effect on `statusAt` and on the tiling: status changes rewrite exactly the
bytes they name, and splits and joins change the representation only.
-/

namespace Ddrescue

/-- `Sblock::join` of two adjacent sblocks: the first grows over the second. -/
def Sblock.join (a c : Sblock) : Sblock := ⟨⟨a.pos, a.size + c.size⟩, a.status⟩

/-- Joining two adjacent sblocks of one status changes no byte and keeps the
tiling. -/
theorem statusAt_join {a c : Sblock} (hst : a.status = c.status) (hadj : a.pos + a.size = c.pos)
    (rest : List Sblock) (p : ℕ) :
    statusAt (a.join c :: rest) p = statusAt (a :: c :: rest) p := by
  simp only [statusAt_cons, Sblock.join]
  by_cases h1 : a.pos ≤ p ∧ p < a.pos + a.size
  · rw [if_pos h1, if_pos ⟨h1.1, by omega⟩]
  · rw [if_neg h1]
    by_cases h2 : c.pos ≤ p ∧ p < c.pos + c.size
    · rw [if_pos h2, if_pos ⟨by omega, by omega⟩, hst]
    · rw [if_neg h2, if_neg (by omega)]

theorem Tiles_join {s : ℕ} {a c : Sblock} {rest : List Sblock}
    (h : Tiles s (a :: c :: rest)) : Tiles s (a.join c :: rest) := by
  obtain ⟨ha, hapos, hc, hcpos, hrest⟩ := h
  refine ⟨ha, by simp [Sblock.join]; omega, ?_⟩
  have : (a.join c).pos + (a.join c).size = c.pos + c.size := by simp [Sblock.join]; omega
  rw [this]
  exact hrest

theorem tileEnd_join (s : ℕ) (a c : Sblock) (rest : List Sblock) (hadj : a.pos + a.size = c.pos) :
    tileEnd s (a.join c :: rest) = tileEnd s (a :: c :: rest) := by
  simp [Sblock.join, ← hadj, Nat.add_assoc]

/-- Replace sblock `i` of the vector by the sblocks `f` makes of it. -/
def replaceAt (f : Sblock → List Sblock) : List Sblock → ℕ → List Sblock
  | [], _ => []
  | sb :: rest, 0 => f sb ++ rest
  | sb :: rest, i + 1 => sb :: replaceAt f rest i

theorem replaceAt_append (f : Sblock → List Sblock) (done tl : List Sblock) (sb : Sblock) :
    replaceAt f (done ++ sb :: tl) done.length = done ++ (f sb ++ tl) := by
  induction done with
  | nil => rfl
  | cons x rest ih => simp [replaceAt, ih]

/-- A join inside a tiling keeps the tiling, its end and every byte's status. -/
theorem join_spec {s : ℕ} {xs ys : List Sblock} {a c : Sblock}
    (h : Tiles s (xs ++ a :: c :: ys)) (hst : a.status = c.status) :
    Tiles s (xs ++ a.join c :: ys) ∧ tileEnd s (xs ++ a.join c :: ys) = tileEnd s (xs ++ a :: c :: ys) ∧
      ∀ p, statusAt (xs ++ a.join c :: ys) p = statusAt (xs ++ a :: c :: ys) p := by
  obtain ⟨hx, hr⟩ := Tiles_append.mp h
  have hadj : a.pos + a.size = c.pos := hr.2.2.1.symm
  refine ⟨Tiles_append.mpr ⟨hx, Tiles_join hr⟩, ?_, fun p => ?_⟩
  · rw [tileEnd_append, tileEnd_append, tileEnd_join _ _ _ _ hadj]
  · rw [statusAt_append, statusAt_append, statusAt_join hst hadj]

/-- The sblocks `pre` and then `post`, the last of `pre` joined with the first of
`post` when the two have one status. -/
def joinAt (pre post : List Sblock) : List Sblock :=
  match pre.getLast?, post with
  | some a, c :: rest => if a.status = c.status then pre.dropLast ++ a.join c :: rest else pre ++ post
  | _, _ => pre ++ post

/-- `joinAt` puts the two lists together, or joins the two sblocks where they meet. -/
theorem joinAt_cases (pre post : List Sblock) :
    joinAt pre post = pre ++ post ∨ ∃ pre0 a c rest, pre = pre0 ++ [a] ∧ post = c :: rest ∧
      a.status = c.status ∧ joinAt pre post = pre0 ++ a.join c :: rest := by
  unfold joinAt
  rcases List.eq_nil_or_concat pre with rfl | ⟨pre0, a, rfl⟩
  · exact .inl rfl
  · rw [List.concat_eq_append, List.getLast?_concat]
    cases post with
    | nil => exact .inl rfl
    | cons c rest =>
      dsimp only
      split
      · exact .inr ⟨pre0, a, c, rest, rfl, rfl, ‹_›, by rw [List.dropLast_concat]⟩
      · exact .inl rfl

/-- `joinAt` keeps a tiling, its end and every byte's status. -/
theorem joinAt_spec {s : ℕ} {pre post : List Sblock} (h : Tiles s (pre ++ post)) :
    Tiles s (joinAt pre post) ∧ tileEnd s (joinAt pre post) = tileEnd s (pre ++ post) ∧
      ∀ p, statusAt (joinAt pre post) p = statusAt (pre ++ post) p := by
  rcases joinAt_cases pre post with heq | ⟨pre0, a, c, rest, rfl, rfl, hst, heq⟩ <;> rw [heq]
  · exact ⟨h, rfl, fun _ => rfl⟩
  · have h' : Tiles s (pre0 ++ a :: c :: rest) := by simpa using h
    simpa using join_spec h' hst

/-- Modelled from the spec: `change_sblock_status( i, st )` gives sblock `i` status
`st` in place and merges it with either neighbour of that status (§4.2): the
sblock after it is joined to it, and it is joined to the sblock before. -/
def changeSblockStatus (sbs : List Sblock) (i : ℕ) (st : Status) : List Sblock :=
  match sbs.drop i with
  | [] => sbs
  | sb :: tl => joinAt (sbs.take i) (joinAt [{ sb with status := st }] tl)

theorem changeSblockStatus_eq (done tl : List Sblock) (sb : Sblock) (st : Status) :
    changeSblockStatus (done ++ sb :: tl) done.length st =
      joinAt done (joinAt [{ sb with status := st }] tl) := by
  simp [changeSblockStatus]

/-- `change_sblock_status( i, st )` on sblock `i` of a tiling keeps the tiling and its
end and gives the bytes of that sblock status `st`; no other byte changes, whichever
neighbours the sblock merges with. -/
theorem changeSblockStatus_spec {s : ℕ} {done tl : List Sblock} {sb : Sblock}
    (h : Tiles s (done ++ sb :: tl)) (st : Status) :
    let r := changeSblockStatus (done ++ sb :: tl) done.length st
    Tiles s r ∧ tileEnd s r = tileEnd s (done ++ sb :: tl) ∧
      ∀ p, statusAt r p = if sb.pos ≤ p ∧ p < sb.pos + sb.size then some st
        else statusAt (done ++ sb :: tl) p := by
  intro r
  obtain ⟨hd, hpos, hsize, htl⟩ := Tiles_append.mp h
  -- the join with the sblock after, then the join with the sblock before
  obtain ⟨t1, e1, s1⟩ := joinAt_spec (show Tiles (tileEnd s done) ([{ sb with status := st }] ++ tl)
    from ⟨hpos, hsize, htl⟩)
  obtain ⟨t2, e2, s2⟩ := joinAt_spec (Tiles_append.mpr ⟨hd, t1⟩)
  rw [show r = _ from changeSblockStatus_eq done tl sb st]
  refine ⟨t2, by rw [e2, tileEnd_append, e1, tileEnd_append, tileEnd_append]; rfl, fun p => ?_⟩
  rw [s2, statusAt_append, s1, statusAt_append done, List.singleton_append, statusAt_cons,
    statusAt_cons]
  dsimp only
  split_ifs with hp
  · rw [statusAt_eq_none_of_tiles hd (.inr (by omega))]
    rfl
  · rfl

/-- `Sblock::split`: the two halves of an sblock cut at a byte strictly inside
it, each keeping its status; the sblock itself otherwise. -/
def Sblock.splitAt (sb : Sblock) (pos : ℕ) : List Sblock :=
  if sb.pos < pos ∧ pos < sb.pos + sb.size then
    [⟨⟨sb.pos, pos - sb.pos⟩, sb.status⟩, ⟨⟨pos, sb.pos + sb.size - pos⟩, sb.status⟩]
  else [sb]

/-- Modelled from the spec: `split_sblock_by( pos, i )` splits sblock `i` at the
absolute position `pos`, preserving its status on both halves (§4.2). -/
def splitSblockBy (sbs : List Sblock) (pos i : ℕ) : List Sblock :=
  replaceAt (fun sb => sb.splitAt pos) sbs i

/-- A split tiles what the sblock tiled and gives every byte its old status. -/
theorem splitAt_spec (sb : Sblock) (pos : ℕ) (hsize : 0 < sb.size) :
    Tiles sb.pos (sb.splitAt pos) ∧ tileEnd sb.pos (sb.splitAt pos) = sb.pos + sb.size ∧
      ∀ p, statusAt (sb.splitAt pos) p = statusAt [sb] p := by
  unfold Sblock.splitAt
  split
  · rename_i h
    refine ⟨⟨rfl, by simp; omega, by simp; omega, by simp; omega, trivial⟩, by simp; omega,
      fun p => ?_⟩
    simp only [statusAt_cons, statusAt_nil]
    split_ifs <;> first | rfl | omega
  · exact ⟨⟨rfl, hsize, trivial⟩, rfl, fun _ => rfl⟩

/-- Replacing the middle of a tiling by sblocks tiling the same interval keeps
the tiling; bytes outside that interval keep their status. -/
theorem splice_spec {s : ℕ} {done mid mid' tl : List Sblock}
    (h : Tiles s (done ++ (mid ++ tl))) (hmid' : Tiles (tileEnd s done) mid')
    (hend : tileEnd (tileEnd s done) mid' = tileEnd (tileEnd s done) mid) :
    Tiles s (done ++ (mid' ++ tl)) ∧
      ∀ p, statusAt (done ++ (mid' ++ tl)) p =
        if tileEnd s done ≤ p ∧ p < tileEnd (tileEnd s done) mid then statusAt mid' p
        else statusAt (done ++ (mid ++ tl)) p := by
  obtain ⟨hd, hrest⟩ := Tiles_append.mp h
  obtain ⟨hm, htl⟩ := Tiles_append.mp hrest
  have ht' : Tiles s (done ++ (mid' ++ tl)) :=
    Tiles_append.mpr ⟨hd, Tiles_append.mpr ⟨hmid', hend ▸ htl⟩⟩
  refine ⟨ht', fun p => ?_⟩
  rw [statusAt_append_of_tiles ht', statusAt_append_of_tiles h,
    statusAt_append_of_tiles (Tiles_append.mp ht').2, statusAt_append_of_tiles hrest, hend]
  have := le_tileEnd hm
  split_ifs <;> first | rfl | omega

/-- `split_sblock_by( q, i )` at a byte strictly inside sblock `i` of a tiling cuts it
in two at `q`: the vector tiles what it tiled and no byte changes status. -/
theorem splitSblockBy_inside {s : ℕ} {done tl : List Sblock} {sb : Sblock}
    (h : Tiles s (done ++ sb :: tl)) {q : ℕ} (hq : sb.pos < q ∧ q < sb.pos + sb.size) :
    let r := done ++ [⟨⟨sb.pos, q - sb.pos⟩, sb.status⟩] ++ ⟨⟨q, sb.pos + sb.size - q⟩, sb.status⟩ :: tl
    splitSblockBy (done ++ sb :: tl) q done.length = r ∧ Tiles s r ∧
      tileEnd s r = tileEnd s (done ++ sb :: tl) ∧
      ∀ p, statusAt r p = statusAt (done ++ sb :: tl) p := by
  intro r
  have heq : r = done ++ (sb.splitAt q ++ tl) := by simp [r, Sblock.splitAt, hq]
  have hpos : sb.pos = tileEnd s done := (Tiles_append.mp h).2.1
  obtain ⟨hs1, hs2, hs3⟩ := splitAt_spec sb q (by omega)
  obtain ⟨ht, hst⟩ := splice_spec (show Tiles s (done ++ ([sb] ++ tl)) by simpa using h)
    (hpos ▸ hs1) (by rw [← hpos, hs2]; rfl)
  refine ⟨by rw [splitSblockBy, replaceAt_append, heq], heq ▸ ht, ?_, fun p => ?_⟩
  · rw [heq, tileEnd_append, tileEnd_append, tileEnd_append, ← hpos, hs2]
    rfl
  · rw [heq, hst p]
    split_ifs with hp
    · rw [← hpos, tileEnd_cons, tileEnd_nil] at hp
      rw [hs3 p, statusAt_cons, if_pos hp, statusAt_of_mem h (by simp) hp]
    · rfl

/-- `split_sblock_by( q, i )` on sblock `i` of a tiling, at any position, changes the
status of no byte. -/
theorem statusAt_splitSblockBy {s : ℕ} {done tl : List Sblock} {sb : Sblock}
    (h : Tiles s (done ++ sb :: tl)) (q p : ℕ) :
    statusAt (splitSblockBy (done ++ sb :: tl) q done.length) p = statusAt (done ++ sb :: tl) p := by
  by_cases hq : sb.pos < q ∧ q < sb.pos + sb.size
  · obtain ⟨hr, -, -, hst⟩ := splitSblockBy_inside h hq
    rw [hr, hst]
  · simp [splitSblockBy, replaceAt_append, Sblock.splitAt, hq]

/-- `find_index( pos )` together with the sblock at that index: the vector split
around the first sblock that includes `pos`. -/
def locate (pos : ℕ) : List Sblock → Option (List Sblock × Sblock × List Sblock)
  | [] => none
  | sb :: rest =>
    if sb.includesPos pos then some ([], sb, rest)
    else (locate pos rest).map fun (pre, x, post) => (sb :: pre, x, post)

/-- In a tiling, `find_index` finds the one sblock holding the position. -/
theorem locate_of_tiles {s : ℕ} {done tl : List Sblock} {sb : Sblock}
    (h : Tiles s (done ++ sb :: tl)) {pos : ℕ} (hpos : sb.pos ≤ pos ∧ pos < sb.pos + sb.size) :
    locate pos (done ++ sb :: tl) = some (done, sb, tl) := by
  induction done generalizing s with
  | nil => simp [locate, hpos]
  | cons x rest ih =>
    rw [List.cons_append] at h
    obtain ⟨rfl, hx, hrest⟩ := h
    have hle := le_pos_of_mem_tiles hrest (List.mem_append_right rest (List.mem_cons_self sb tl))
    rw [List.cons_append, locate, if_neg (by simp; omega), ih hrest]
    rfl

/-- What `find_index` returns is a split of the vector around an sblock that
includes the position. -/
theorem locate_eq_some {pos : ℕ} {l pre post : List Sblock} {x : Sblock}
    (h : locate pos l = some (pre, x, post)) :
    l = pre ++ x :: post ∧ x.pos ≤ pos ∧ pos < x.pos + x.size := by
  induction l generalizing pre with
  | nil => cases h
  | cons sb rest ih =>
    unfold locate at h
    split at h
    · rename_i hinc
      cases h
      exact ⟨rfl, by simpa using hinc⟩
    · obtain ⟨⟨pre', x', post'⟩, hloc, heq⟩ := Option.map_eq_some'.mp h
      cases heq
      obtain ⟨rfl, hx⟩ := ih hloc
      exact ⟨rfl, hx⟩

/-- A neighbour absorbs a chunk rewritten to status `st` when it has that status
and lies in the domain. -/
def absorbs (d : Domain) (st : Status) (sb : Sblock) : Bool :=
  sb.status == st && d.includes sb.toBlock

/-- The rewritten chunk `c`, joined to the sblock after it when it reaches
that one (`tail` is empty) and that one absorbs it. -/
def joinRight (d : Domain) (st : Status) (c : Sblock) :
    List Sblock → List Sblock → Sblock × List Sblock
  | [], nx :: rest => if absorbs d st nx then (c.join nx, rest) else (c, nx :: rest)
  | _, post => (c, post)

/-- The sblocks before the rewritten chunk `c`, the last of them grown over `c`
when it absorbs it. -/
def joinLeft (d : Domain) (st : Status) (pre : List Sblock) (c : Sblock) : List Sblock :=
  match pre.getLast? with
  | some l => if absorbs d st l then pre.dropLast ++ [l.join c] else pre ++ [c]
  | none => [c]

/-- The sblocks that replace `sb` once the chunk `b` inside it takes status
`st`: the parts of `sb` before and after `b` keep its status, and the chunk is
joined to its neighbours that absorb it. `pre` and `post` are the sblocks
around `sb`. -/
def rewriteChunk (d : Domain) (b : Block) (st : Status) (pre : List Sblock) (sb : Sblock)
    (post : List Sblock) : List Sblock :=
  let pre : List Sblock :=
    if sb.pos < b.pos then pre ++ [⟨⟨sb.pos, b.pos - sb.pos⟩, sb.status⟩] else pre
  let tail : List Sblock :=
    if b.pos + b.size < sb.pos + sb.size then
      [⟨⟨b.pos + b.size, sb.pos + sb.size - (b.pos + b.size)⟩, sb.status⟩]
    else []
  let (c, post) := joinRight d st ⟨b, st⟩ tail post
  joinLeft d st pre c ++ (tail ++ post)

/-- `joinLeft` either appends the chunk or grows the last sblock before it. -/
theorem joinLeft_cases (d : Domain) (st : Status) (pre : List Sblock) (c : Sblock) :
    joinLeft d st pre c = pre ++ [c] ∨
      ∃ pre0 l, pre = pre0 ++ [l] ∧ joinLeft d st pre c = pre0 ++ [l.join c] := by
  unfold joinLeft
  rcases List.eq_nil_or_concat pre with rfl | ⟨pre0, l, rfl⟩
  · exact Or.inl rfl
  · rw [List.concat_eq_append, List.getLast?_concat]
    dsimp only
    split
    · exact Or.inr ⟨pre0, l, rfl, by rw [List.dropLast_concat]⟩
    · exact Or.inl rfl

/-- A chunk at the start of `sb` that ends strictly inside it becomes an sblock of
its own followed by the rest of `sb`, or is joined to the sblock before, which absorbs
it; the sblocks before and after are left as they are. -/
theorem rewriteChunk_prefix (d : Domain) (st : Status) (pre post : List Sblock) (sb : Sblock)
    {b : Block} (hpos : b.pos = sb.pos) (hend : b.pos + b.size < sb.pos + sb.size) :
    let tw : Sblock := ⟨⟨b.pos + b.size, sb.pos + sb.size - (b.pos + b.size)⟩, sb.status⟩
    rewriteChunk d b st pre sb post = pre ++ ⟨b, st⟩ :: tw :: post ∨
      ∃ pre0 l, pre = pre0 ++ [l] ∧
        rewriteChunk d b st pre sb post = pre0 ++ [l.join ⟨b, st⟩] ++ tw :: post := by
  intro tw
  have h : rewriteChunk d b st pre sb post = joinLeft d st pre ⟨b, st⟩ ++ tw :: post := by
    simp only [rewriteChunk, if_neg (show ¬sb.pos < b.pos by omega), if_pos hend]
    rfl
  rcases joinLeft_cases d st pre ⟨b, st⟩ with hj | ⟨pre0, l, rfl, hj⟩
  · exact .inl (by simp [h, hj])
  · exact .inr ⟨pre0, l, rfl, by rw [h, hj]⟩

/-- The joined chunk keeps the chunk's status. -/
theorem joinRight_status (d : Domain) (st : Status) (c : Sblock) (tail post : List Sblock) :
    (joinRight d st c tail post).1.status = c.status := by
  unfold joinRight
  split
  · split <;> rfl
  · rfl

theorem joinRight_spec {d : Domain} {st : Status} {s : ℕ} {xs tail post : List Sblock} {c : Sblock}
    (h : Tiles s (xs ++ c :: (tail ++ post))) (hc : c.status = st) :
    Tiles s (xs ++ (joinRight d st c tail post).1 :: (tail ++ (joinRight d st c tail post).2)) ∧
      tileEnd s (xs ++ (joinRight d st c tail post).1 :: (tail ++ (joinRight d st c tail post).2)) =
        tileEnd s (xs ++ c :: (tail ++ post)) ∧
      ∀ p, statusAt (xs ++ (joinRight d st c tail post).1 ::
          (tail ++ (joinRight d st c tail post).2)) p = statusAt (xs ++ c :: (tail ++ post)) p := by
  unfold joinRight
  split
  · rename_i nx rest
    split
    · rename_i hab
      simp only [absorbs, Bool.and_eq_true, beq_iff_eq] at hab
      exact join_spec h (hc.trans hab.1.symm)
    · exact ⟨h, rfl, fun _ => rfl⟩
  · exact ⟨h, rfl, fun _ => rfl⟩

theorem joinLeft_spec {d : Domain} {st : Status} {s : ℕ} {pre ys : List Sblock} {c : Sblock}
    (h : Tiles s (pre ++ c :: ys)) (hc : c.status = st) :
    Tiles s (joinLeft d st pre c ++ ys) ∧ tileEnd s (joinLeft d st pre c ++ ys) = tileEnd s (pre ++ c :: ys) ∧
      ∀ p, statusAt (joinLeft d st pre c ++ ys) p = statusAt (pre ++ c :: ys) p := by
  unfold joinLeft
  rcases List.eq_nil_or_concat pre with rfl | ⟨pre0, l, rfl⟩
  · exact ⟨h, rfl, fun _ => rfl⟩
  · rw [List.concat_eq_append] at h ⊢
    rw [List.getLast?_concat]
    dsimp only
    split
    · rename_i hab
      simp only [absorbs, Bool.and_eq_true, beq_iff_eq] at hab
      simp only [List.dropLast_concat, List.append_assoc, List.singleton_append] at h ⊢
      exact join_spec h (hab.1.trans hc.symm)
    · simp only [List.append_assoc, List.singleton_append] at h ⊢
      exact ⟨h, rfl, fun _ => rfl⟩

/-- Before any join, the rewrite cuts `sb` into the part before `b`, the chunk
of status `st` and the part after `b`. -/
theorem cut_spec {s : ℕ} {pre post : List Sblock} {sb : Sblock} {b : Block} (st : Status)
    (h : Tiles s (pre ++ sb :: post)) (hb : 0 < b.size)
    (hin : sb.pos ≤ b.pos ∧ b.pos + b.size ≤ sb.pos + sb.size) :
    let pre' : List Sblock :=
      if sb.pos < b.pos then pre ++ [⟨⟨sb.pos, b.pos - sb.pos⟩, sb.status⟩] else pre
    let tail : List Sblock :=
      if b.pos + b.size < sb.pos + sb.size then
        [⟨⟨b.pos + b.size, sb.pos + sb.size - (b.pos + b.size)⟩, sb.status⟩]
      else []
    Tiles s (pre' ++ ⟨b, st⟩ :: (tail ++ post)) ∧
      tileEnd s (pre' ++ ⟨b, st⟩ :: (tail ++ post)) = tileEnd s (pre ++ sb :: post) ∧
      ∀ p, statusAt (pre' ++ ⟨b, st⟩ :: (tail ++ post)) p =
        if b.pos ≤ p ∧ p < b.pos + b.size then some st else statusAt (pre ++ sb :: post) p := by
  intro pre' tail
  have hsb : Tiles (tileEnd s pre) (sb :: post) := (Tiles_append.mp h).2
  have hsbpos : sb.pos = tileEnd s pre := hsb.1
  let mid : List Sblock :=
    (if sb.pos < b.pos then [⟨⟨sb.pos, b.pos - sb.pos⟩, sb.status⟩] else []) ++ ⟨b, st⟩ :: tail
  have hmid : Tiles (tileEnd s pre) mid ∧ tileEnd (tileEnd s pre) mid = sb.pos + sb.size ∧
      ∀ p, sb.pos ≤ p → p < sb.pos + sb.size →
        statusAt mid p = if b.pos ≤ p ∧ p < b.pos + b.size then some st else some sb.status := by
    simp only [mid, tail]
    split_ifs <;> simp only [Tiles_cons, tileEnd_cons, List.nil_append, List.singleton_append,
      List.cons_append, Tiles_nil, tileEnd_nil, statusAt_cons, statusAt_nil, and_true,
      true_and] <;>
      refine ⟨by omega, by omega, fun p hp1 hp2 => ?_⟩ <;> split_ifs <;> first | rfl | omega
  have heq : pre' ++ ⟨b, st⟩ :: (tail ++ post) = pre ++ (mid ++ post) := by
    simp only [pre', mid]
    split_ifs <;> simp
  rw [heq]
  obtain ⟨ht, hst⟩ := splice_spec (show Tiles s (pre ++ ([sb] ++ post)) by simpa using h) hmid.1
    (by rw [hmid.2.1]; simp [← hsbpos])
  refine ⟨ht, ?_, fun p => ?_⟩
  · rw [tileEnd_append, tileEnd_append, hmid.2.1, tileEnd_append]
    simp [← hsbpos]
  · rw [hst p]
    simp only [tileEnd_cons, tileEnd_nil, ← hsbpos, List.singleton_append]
    split_ifs with h1 h2 h2 <;> first
      | rw [hmid.2.2 p h1.1 h1.2, if_pos h2]
      | rw [hmid.2.2 p h1.1 h1.2, if_neg h2, statusAt_append, statusAt_eq_none_of_tiles
          (Tiles_append.mp h).1 (by omega), Option.none_or, statusAt_cons, if_pos h1]
      | omega
      | rfl

/-- The byte-level meaning of the rewrite: the bytes of `b` take status `st`
and no other byte changes; the tiling and its end are kept. -/
theorem rewriteChunk_spec (d : Domain) (st : Status) {s : ℕ} {pre post : List Sblock} {sb : Sblock}
    {b : Block} (h : Tiles s (pre ++ sb :: post)) (hb : 0 < b.size)
    (hin : sb.pos ≤ b.pos ∧ b.pos + b.size ≤ sb.pos + sb.size) :
    Tiles s (rewriteChunk d b st pre sb post) ∧
      tileEnd s (rewriteChunk d b st pre sb post) = tileEnd s (pre ++ sb :: post) ∧
      ∀ p, statusAt (rewriteChunk d b st pre sb post) p =
        if b.pos ≤ p ∧ p < b.pos + b.size then some st else statusAt (pre ++ sb :: post) p := by
  obtain ⟨hc1, hc2, hc3⟩ := cut_spec st h hb hin
  obtain ⟨hr1, hr2, hr3⟩ := joinRight_spec (d := d) hc1 rfl
  obtain ⟨hl1, hl2, hl3⟩ := joinLeft_spec (d := d) hr1 (joinRight_status _ _ _ _ _)
  unfold rewriteChunk
  exact ⟨hl1, hl2.trans (hr2.trans hc2), fun p => (hl3 p).trans ((hr3 p).trans (hc3 p))⟩

/-- The sblock `joinRight` returns starts where the chunk does, and what
follows it is part of `post`. -/
theorem joinRight_pos (d : Domain) (st : Status) (c : Sblock) (tail post : List Sblock) :
    (joinRight d st c tail post).1.pos = c.pos ∧ ∀ y ∈ (joinRight d st c tail post).2, y ∈ post := by
  unfold joinRight
  split
  · split
    · exact ⟨rfl, fun y hy => List.mem_cons_of_mem _ hy⟩
    · exact ⟨rfl, fun y hy => hy⟩
  · exact ⟨rfl, fun y hy => hy⟩

/-- Each sblock `joinLeft` returns is the chunk or starts where an sblock
before it starts. -/
theorem pos_of_mem_joinLeft {d : Domain} {st : Status} {pre : List Sblock} {c y : Sblock}
    (hy : y ∈ joinLeft d st pre c) : (∃ z ∈ pre, y.pos = z.pos) ∨ y = c := by
  unfold joinLeft at hy
  split at hy
  · rename_i l hl
    split at hy
    · rcases List.mem_append.mp hy with h | h
      · exact .inl ⟨y, List.dropLast_subset _ h, rfl⟩
      · rw [List.mem_singleton.mp h]
        exact .inl ⟨l, List.mem_of_getLast?_eq_some hl, rfl⟩
    · rcases List.mem_append.mp hy with h | h
      · exact .inl ⟨y, h, rfl⟩
      · exact .inr (List.mem_singleton.mp h)
  · exact .inr (List.mem_singleton.mp hy)

/-- A rewrite starts no sblock anywhere but at an old start or at an edge of
the chunk. -/
theorem pos_of_mem_rewriteChunk {d : Domain} {b : Block} {st : Status} {pre post : List Sblock}
    {sb y : Sblock} (hy : y ∈ rewriteChunk d b st pre sb post) :
    y.pos = b.pos ∨ y.pos = b.pos + b.size ∨ ∃ z ∈ pre ++ sb :: post, y.pos = z.pos := by
  have hmem : ∀ z ∈ pre, z ∈ pre ++ sb :: post := fun z hz => List.mem_append_left _ hz
  obtain ⟨hc, hpost⟩ := joinRight_pos d st ⟨b, st⟩
    (if b.pos + b.size < sb.pos + sb.size then
      [⟨⟨b.pos + b.size, sb.pos + sb.size - (b.pos + b.size)⟩, sb.status⟩] else []) post
  unfold rewriteChunk at hy
  rcases List.mem_append.mp hy with hl | hr
  · rcases pos_of_mem_joinLeft hl with ⟨z, hz, hyz⟩ | rfl
    · split at hz
      · rcases List.mem_append.mp hz with hz | hz
        · exact .inr (.inr ⟨z, hmem z hz, hyz⟩)
        · rw [List.mem_singleton.mp hz] at hyz
          exact .inr (.inr ⟨sb, by simp, hyz⟩)
      · exact .inr (.inr ⟨z, hmem z hz, hyz⟩)
    · exact .inl hc
  · rcases List.mem_append.mp hr with ht | hp
    · split at ht
      · exact .inr (.inl (by rw [List.mem_singleton.mp ht]))
      · cases ht
    · exact .inr (.inr ⟨y, by simp [hpost y hp], rfl⟩)

/-- Modelled from the spec: `change_chunk_status( b, st )` (§4.2) finds the
sblock holding `b`, splits it at the edges of `b`, rewrites the chunk and
compacts it with its neighbours of status `st` that lie in the domain. A chunk
outside the domain or spread over more than one sblock is an internal
inconsistency (§4.7): the Logbook panics, which is `none` here. -/
def changeChunkStatus (d : Domain) (sbs : List Sblock) (b : Block) (st : Status) :
    Option (List Sblock) :=
  if b.size = 0 then some sbs
  else if !d.includes b then none
  else match locate b.pos sbs with
    | none => none
    | some (pre, sb, post) =>
      if !sb.toBlock.includes b then none
      else if sb.status = st then some sbs
      else some (rewriteChunk d b st pre sb post)

/-- `change_chunk_status` on a chunk of the domain inside one sblock does not
panic: it rewrites that sblock. -/
theorem changeChunkStatus_of_tiles {d : Domain} {s : ℕ} {done tl : List Sblock} {sb : Sblock}
    (h : Tiles s (done ++ sb :: tl)) {b : Block} {st : Status} (hb : 0 < b.size)
    (hin : sb.pos ≤ b.pos ∧ b.pos + b.size ≤ sb.pos + sb.size)
    (hbdom : d.includes b = true) :
    changeChunkStatus d (done ++ sb :: tl) b st =
      some (if sb.status = st then done ++ sb :: tl else rewriteChunk d b st done sb tl) := by
  unfold changeChunkStatus
  rw [if_neg (by omega), hbdom, locate_of_tiles h ⟨hin.1, by omega⟩]
  simp only [Bool.not_true, Bool.false_eq_true, if_false]
  rw [if_neg (by simp; omega)]
  split <;> rfl

/-- `change_chunk_status` of the part of sblock `sb` before a byte `q` strictly inside
it, toward a status other than `sb`'s, inside the domain: the new vector tiles what the
old one did, gives the part status `st` and keeps every other byte's status. The part
becomes an sblock of its own before the rest of `sb`, or joins the sblock before. -/
theorem changeChunkStatus_prefix {d : Domain} {s : ℕ} {done tl : List Sblock} {sb : Sblock}
    (h : Tiles s (done ++ sb :: tl)) (hin : d.includes sb.toBlock = true) {q : ℕ}
    (hq : sb.pos < q ∧ q < sb.pos + sb.size) {st : Status} (hst : sb.status ≠ st) :
    ∃ r, changeChunkStatus d (done ++ sb :: tl) ⟨sb.pos, q - sb.pos⟩ st = some r ∧
      Tiles s r ∧ tileEnd s r = tileEnd s (done ++ sb :: tl) ∧
      (∀ p, statusAt r p = if sb.pos ≤ p ∧ p < q then some st else statusAt (done ++ sb :: tl) p) ∧
      (r = done ++ ⟨⟨sb.pos, q - sb.pos⟩, st⟩ :: ⟨⟨q, sb.pos + sb.size - q⟩, sb.status⟩ :: tl ∨
        ∃ pre0 l, done = pre0 ++ [l] ∧
          r = pre0 ++ [l.join ⟨⟨sb.pos, q - sb.pos⟩, st⟩] ++ ⟨⟨q, sb.pos + sb.size - q⟩, sb.status⟩ :: tl) := by
  let c : Block := ⟨sb.pos, q - sb.pos⟩
  have hc : 0 < c.size := by dsimp only [c]; omega
  have hcin : sb.pos ≤ c.pos ∧ c.pos + c.size ≤ sb.pos + sb.size := by dsimp only [c]; omega
  have hcq : c.pos + c.size = q := by dsimp only [c]; omega
  rw [changeChunkStatus_of_tiles h hc hcin (Domain.includes_of_includes hin hcin), if_neg hst]
  obtain ⟨ht, hE, hst'⟩ := rewriteChunk_spec d st h hc hcin
  refine ⟨_, rfl, ht, hE, fun p => by rw [hst' p, hcq], ?_⟩
  rcases rewriteChunk_prefix d st done tl sb (show c.pos = sb.pos from rfl) (by omega)
    with hL | ⟨pre0, l, rfl, hL⟩ <;> rw [hcq] at hL
  · exact .inl hL
  · exact .inr ⟨pre0, l, rfl, hL⟩

/-- Modelled from the spec: `compact_sblock_vector` merges every run of
adjacent sblocks of one status into one sblock (§4.2), with `Sblock::join`. -/
def compactSblockVector : List Sblock → List Sblock
  | [] => []
  | sb :: rest =>
    match compactSblockVector rest with
    | nx :: tail =>
      if sb.status = nx.status ∧ sb.pos + sb.size = nx.pos then sb.join nx :: tail
      else sb :: nx :: tail
    | [] => [sb]

/-- Compaction keeps the tiling, its end and the status of every byte. -/
theorem compactSblockVector_spec {s : ℕ} {l : List Sblock} (h : Tiles s l) :
    Tiles s (compactSblockVector l) ∧ tileEnd s (compactSblockVector l) = tileEnd s l ∧
      ∀ p, statusAt (compactSblockVector l) p = statusAt l p := by
  induction l generalizing s with
  | nil => exact ⟨trivial, rfl, fun _ => rfl⟩
  | cons sb rest ih =>
    obtain ⟨hpos, hsize, hrest⟩ := h
    obtain ⟨ih1, ih2, ih3⟩ := ih hrest
    have hcons : ∀ p, statusAt (sb :: compactSblockVector rest) p = statusAt (sb :: rest) p := by
      intro p
      rw [statusAt_cons, statusAt_cons, ih3]
    unfold compactSblockVector
    split
    · rename_i nx tail heq
      rw [heq] at ih1 ih2 hcons
      split
      · rename_i hj
        have ht : Tiles s (sb :: nx :: tail) := ⟨hpos, hsize, ih1⟩
        refine ⟨Tiles_join ht, ?_, fun p => ?_⟩
        · rw [tileEnd_join _ _ _ _ hj.2]
          exact ih2
        · rw [statusAt_join hj.1 hj.2, hcons]
      · exact ⟨⟨hpos, hsize, ih1⟩, ih2, hcons⟩
    · rename_i heq
      rw [heq] at ih1 ih2 hcons
      exact ⟨⟨hpos, hsize, ih1⟩, ih2, hcons⟩

/-- Every sblock of `l` that has `pos` strictly inside it, cut there. -/
def splitAllAt (pos : ℕ) (l : List Sblock) : List Sblock := l.flatMap (·.splitAt pos)

/-- The cuts of `split_domain_border_sblocks` at the start and the end of each
block of `dbs`, in order. -/
def splitBorders : List Block → List Sblock → List Sblock
  | [], sbs => sbs
  | db :: dbs, sbs => splitBorders dbs (splitAllAt (db.pos + db.size) (splitAllAt db.pos sbs))

/-- Modelled from the spec: `split_domain_border_sblocks` cuts every sblock
that the start or the end of a domain block falls strictly inside, so that no
sblock crosses a border of the domain. -/
def splitDomainBorderSblocks (d : Domain) (sbs : List Sblock) : List Sblock :=
  splitBorders d.blocks sbs

/-- Modelled from the spec: `truncate_vector( end, fill )` moves the end of the
vector to `end` (§4.2): the sblocks at or past it are dropped and the one
across it is cut; with `fill`, a vector that ends before `end` is extended by a
non-tried sblock. -/
def truncateVector (e : ℕ) (fill : Bool) : List Sblock → List Sblock
  | [] => []
  | sb :: rest =>
    if e ≤ sb.pos then []
    else if e ≤ sb.pos + sb.size then [⟨⟨sb.pos, e - sb.pos⟩, sb.status⟩]
    else match rest with
      | [] =>
        if fill then [sb, ⟨⟨sb.pos + sb.size, e - (sb.pos + sb.size)⟩, .nonTried⟩] else [sb]
      | _ :: _ => sb :: truncateVector e fill rest

/-- A nonempty tiling that already ends at `e` is left as it is. -/
theorem truncateVector_of_tileEnd (fill : Bool) {s : ℕ} {l : List Sblock} (h : Tiles s l)
    (hne : l ≠ []) : truncateVector (tileEnd s l) fill l = l := by
  induction l generalizing s with
  | nil => exact absurd rfl hne
  | cons sb rest ih =>
    obtain ⟨rfl, hsize, hrest⟩ := h
    cases rest with
    | nil =>
      simp only [truncateVector, tileEnd_cons, tileEnd_nil]
      rw [if_neg (by omega), if_pos le_rfl, Nat.add_sub_cancel_left]
    | cons y ys =>
      obtain ⟨hy, hysize, hys⟩ := hrest
      have hle := le_tileEnd hys
      simp only [tileEnd_cons] at hle ⊢
      rw [truncateVector, if_neg (by omega), if_neg (by omega)]
      simpa only [tileEnd_cons] using congrArg (sb :: ·) (ih (s := sb.pos + sb.size)
        ⟨hy, hysize, hys⟩ (List.cons_ne_nil _ _))

end Ddrescue
