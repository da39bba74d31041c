import Mathlib.Data.List.TakeWhile

namespace Firestarter.Util

/-!
# The lines that `bufread` returns (`bufread.h`)

`bufread` with an I/O buffer and a line buffer of any size, and a `read` that may return fewer bytes
than asked for, be interrupted, or fail.  A line may end at, before or behind the end of the I/O
buffer, and the end of the file shows as NULs that a refill leaves in it.

* `fill_eq` — how `read` splits the data makes no difference to a refill;
* `bufreadFrom_spec` — what a call returns has no NUL and is lost to the reader;
* `loop_line`, `loop_last` — one call, from any point inside a line;
* `bufreads_lines` — successive calls return the lines of the file, and then nothing.
-/

/-! ### Segments -/

/-- The terminator of C strings. -/
abbrev nul : Char := Char.ofNat 0

/-- `strchrnul(ptr, '\n')`, with the newline when there is one: the bytes passed over, and the
    rest of the buffer. -/
def segment : List Char → List Char × List Char
  | [] => ([], [])
  | c :: s =>
    if c = '\n' then ([c], s)
    else if c = nul then ([], c :: s)
    else (c :: (segment s).1, (segment s).2)

theorem segment_append (s : List Char) : (segment s).1 ++ (segment s).2 = s := by
  induction s with
  | nil => rfl
  | cons c s ih =>
    rw [segment]
    split_ifs
    · rfl
    · rfl
    · exact congrArg (c :: ·) ih

theorem nul_notMem_segment (s : List Char) : nul ∉ (segment s).1 := by
  induction s with
  | nil => exact List.not_mem_nil
  | cons c s ih =>
    rw [segment]
    split_ifs with hnl hnul
    · rw [hnl]
      exact fun h => absurd (List.mem_singleton.mp h) (by decide)
    · exact List.not_mem_nil
    · exact List.not_mem_cons_of_ne_of_not_mem (Ne.symm hnul) ih

/-- A byte other than NUL is passed over. -/
theorem segment_ne_nil {s : List Char} (hs : s ≠ []) (hnul : s.head? ≠ some nul) :
    (segment s).1 ≠ [] := by
  cases s with
  | nil => exact absurd rfl hs
  | cons c s =>
    have hc : c ≠ nul := fun h => hnul (congrArg some h)
    rw [segment]
    split_ifs
    · exact List.cons_ne_nil c []
    · exact List.cons_ne_nil c _

/-- A part of a line belongs to the segment. -/
theorem segment_body_append {body : List Char} (hb : ∀ c ∈ body, c ≠ '\n' ∧ c ≠ nul)
    (s : List Char) : segment (body ++ s) = (body ++ (segment s).1, (segment s).2) := by
  induction body with
  | nil => rfl
  | cons c body ih =>
    obtain ⟨hc, hb⟩ := List.forall_mem_cons.mp hb
    rw [List.cons_append, segment, if_neg hc.1, if_neg hc.2, ih hb]
    rfl

namespace LineReader

/-! ### The code -/

/-- What one `read` does: it is interrupted, fails, or returns at most `k + 1` bytes. -/
inductive ReadAnswer
  | eintr
  | fail
  | upTo (k : ℕ)
  deriving DecidableEq

/-- The reader between two calls: the bytes from `buf->ptr` to `buf->end`, what the descriptor has
    left, and what the next reads do.  Behind the script each read returns all it can. -/
structure State where
  pending : List Char
  file : List Char
  script : List ReadAnswer

/-- `while (to_read > 0)`: the bytes read, and what is left of the file and the script; `none` if a
    read fails.  A read of no bytes is the end of the file. -/
def fill : List ReadAnswer → List Char → ℕ → Option (List Char × List Char × List ReadAnswer)
  | [], file, toRead => some (file.take toRead, file.drop toRead, [])
  | answer :: script, file, toRead =>
    if toRead = 0 then some ([], file, answer :: script)
    else
      match answer with
      | .fail => none
      | .eintr => fill script file toRead
      | .upTo k =>
        let got := file.take (min toRead (k + 1))
        if got = [] then some ([], file, script)
        else (fill script (file.drop got.length) (toRead - got.length)).map
          fun r => (got ++ r.1, r.2)

section Code

variable (size cap : ℕ)

/-- The I/O buffer is zeroed and filled, and the pointer set to its start. -/
def refillFrom (st : State) : Option State :=
  (fill st.script st.file size).map fun r =>
    ⟨r.1 ++ List.replicate (size - r.1.length) nul, r.2.1, r.2.2⟩

/-- One iteration of the loop of `bufread`: whether new data was read, what has been copied to
    `dst`, and the reader.  `cap` is `dstsize - 1`. -/
def iter (st : State) (dst : List Char) : Option (Bool × List Char × State) :=
  if st.pending.head? = some nul then some (false, dst, { st with pending := st.pending.tail })
  else
    let seg := segment st.pending
    let dst' := dst ++ seg.1.take (cap - dst.length)
    if st.pending ≠ [] ∧ (dst'.length = cap ∨ seg.1.getLast? = some '\n') then
      some (false, dst', { st with pending := seg.2 })
    else if seg.2 = [] then (refillFrom size st).map fun st' => (true, dst', st')
    else some (false, dst', { st with pending := seg.2 })

/-- The loop, for at most `n` iterations. -/
def loop : ℕ → State → List Char → Option (List Char × State)
  | 0, _, _ => none
  | n + 1, st, dst =>
    match iter size cap st dst with
    | none => none
    | some (true, dst', st') => loop n st' dst'
    | some (false, dst', st') => some (dst', st')

variable (dstsize : UInt64)

/-- `bufread`: the bytes copied to `dst`, whose number is its result, and the reader; `none` for the
    result `-1`.  Every iteration but the last two reads something. -/
def bufreadFrom (st : State) : Option (List Char × State) :=
  if size ≤ st.pending.length then none
  else loop size (dstsize - 1).toNat (st.file.length + 2) st []

/-- `n` calls in a row. -/
def bufreads : ℕ → State → Option (List (List Char) × State)
  | 0, st => some ([], st)
  | n + 1, st =>
    match bufreadFrom size dstsize st with
    | none => none
    | some (line, st') => (bufreads n st').map fun r => (line :: r.1, r.2)

end Code

/-! ### Lines -/

/-- The lines of a text: each with its newline, but for a last one without. -/
def lines : List Char → List (List Char)
  | [] => []
  | c :: s =>
    if c = '\n' then [c] :: lines s
    else
      match lines s with
      | [] => [[c]]
      | l :: ls => (c :: l) :: ls

/-- What it is to be split into lines. -/
inductive AreLines : List (List Char) → Prop
  | nil : AreLines []
  | last {body : List Char} (hne : body ≠ []) (hbody : '\n' ∉ body) : AreLines [body]
  | cons {body : List Char} {ls : List (List Char)} (hbody : '\n' ∉ body) (h : AreLines ls) :
      AreLines ((body ++ ['\n']) :: ls)

theorem flatten_lines (s : List Char) : (lines s).flatten = s := by
  induction s with
  | nil => rfl
  | cons c s ih =>
    unfold lines
    by_cases hc : c = '\n'
    · rw [if_pos hc, List.flatten_cons, ih]
      rfl
    · rw [if_neg hc]
      cases hl : lines s with
      | nil =>
        rw [hl] at ih
        rw [← ih]
        rfl
      | cons l ls =>
        rw [hl, List.flatten_cons] at ih
        rw [← ih]
        rfl

theorem areLines_lines (s : List Char) : AreLines (lines s) := by
  induction s with
  | nil => exact .nil
  | cons c s ih =>
    unfold lines
    by_cases hc : c = '\n'
    · rw [if_pos hc, hc]
      show AreLines (([] ++ ['\n']) :: lines s)
      exact .cons List.not_mem_nil ih
    · rw [if_neg hc]
      have hnot : ∀ {body : List Char}, '\n' ∉ body → '\n' ∉ c :: body := fun h =>
        List.not_mem_cons_of_ne_of_not_mem (Ne.symm hc) h
      -- the character goes in front of the first line
      generalize lines s = ls at ih ⊢
      cases ih with
      | nil => exact .last (List.cons_ne_nil c []) (hnot List.not_mem_nil)
      | last _ hbody => exact .last (List.cons_ne_nil c _) (hnot hbody)
      | @cons body ls hbody h =>
        show AreLines (((c :: body) ++ ['\n']) :: ls)
        exact .cons (hnot hbody) h

/-! ### Refills -/

/-- **The splits of the data do not matter**: without a failure the reads return the next bytes, as
    many as asked for or as the file has. -/
theorem fill_eq {script : List ReadAnswer} (hfail : .fail ∉ script) (file : List Char)
    (toRead : ℕ) :
    ∃ script', .fail ∉ script' ∧
      fill script file toRead = some (file.take toRead, file.drop toRead, script') := by
  induction script generalizing file toRead with
  | nil => exact ⟨[], List.not_mem_nil, rfl⟩
  | cons answer script ih =>
    obtain ⟨hanswer, hscript⟩ := List.ne_and_not_mem_of_not_mem_cons hfail
    unfold fill
    by_cases hzero : toRead = 0
    · subst hzero
      exact ⟨answer :: script, hfail, rfl⟩
    · rw [if_neg hzero]
      cases answer with
      | fail => exact absurd rfl hanswer
      | eintr => exact ih hscript file toRead
      | upTo k =>
        show ∃ script', _ ∧ (if file.take (min toRead (k + 1)) = [] then _ else _) = _
        by_cases hgot : file.take (min toRead (k + 1)) = []
        · -- nothing is left to read
          obtain rfl : file = [] := (List.take_eq_nil_iff.mp hgot).resolve_left (by omega)
          exact ⟨script, hscript, by simp⟩
        · obtain ⟨g, hg⟩ : ∃ g, (file.take (min toRead (k + 1))).length = g := ⟨_, rfl⟩
          have hle : g ≤ toRead := by
            rw [← hg, List.length_take]
            omega
          have htake : file.take (min toRead (k + 1)) = file.take g := by
            rw [← hg, List.length_take, List.take_eq_take_iff]
            omega
          obtain ⟨script', hfail', hfill⟩ := ih hscript (file.drop g) (toRead - g)
          refine ⟨script', hfail', ?_⟩
          rw [if_neg hgot, hg, hfill, Option.map_some, htake, ← List.take_add, List.drop_drop,
            Nat.add_sub_cancel' hle]

/-- A refill: the next bytes of the file, and NULs behind its end. -/
theorem refillFrom_eq {st : State} (hfail : .fail ∉ st.script) (size : ℕ) :
    ∃ script', .fail ∉ script' ∧ refillFrom size st =
      some ⟨st.file.take size ++ List.replicate (size - st.file.length) nul, st.file.drop size,
        script'⟩ := by
  obtain ⟨script', hfail', hfill⟩ := fill_eq hfail st.file size
  refine ⟨script', hfail', ?_⟩
  rw [refillFrom, hfill, Option.map_some, List.length_take]
  congr 3
  rw [show size - min size st.file.length = size - st.file.length by omega]

/-- The text of a refill is the file, with NULs behind it. -/
theorem refill_append (file : List Char) (size : ℕ) :
    file.take size ++ List.replicate (size - file.length) nul ++ file.drop size =
      file ++ List.replicate (size - file.length) nul := by
  rcases Nat.le_total file.length size with h | h
  · rw [List.take_of_length_le h, List.drop_of_length_le h, List.append_nil]
  · rw [Nat.sub_eq_zero_of_le h, List.replicate_zero, List.append_nil, List.append_nil,
      List.take_append_drop]

/-! ### Where a line ends -/

/-- If the buffer is longer than the body of the first line, the line ends in it. -/
theorem ends_in_buffer {pending file body rest : List Char} (hlt : body.length < pending.length)
    (htext : pending ++ file = body ++ '\n' :: rest) :
    ∃ s, pending = body ++ '\n' :: s ∧ s ++ file = rest := by
  rcases List.append_eq_append_iff.mp htext with ⟨a, rfl, -⟩ | ⟨a, hp, ha⟩
  · rw [List.length_append] at hlt
    omega
  · cases a with
    | nil =>
      rw [hp, List.append_nil] at hlt
      omega
    | cons c a =>
      obtain ⟨rfl, rfl⟩ := List.cons.inj ha
      exact ⟨a, hp, rfl⟩

/-- Otherwise it goes on at the head of the file. -/
theorem goes_on_in_file {pending file body rest : List Char} (hge : pending.length ≤ body.length)
    (htext : pending ++ file = body ++ rest) :
    ∃ tail, body = pending ++ tail ∧ file = tail ++ rest := by
  rcases List.append_eq_append_iff.mp htext with ⟨a, ha, hf⟩ | ⟨a, ha, hf⟩
  · exact ⟨a, ha, hf⟩
  · have hnil : a = [] := by
      rw [ha, List.length_append] at hge
      exact List.length_eq_zero_iff.mp (by omega)
    subst hnil
    exact ⟨[], by simpa using ha.symm, by simpa using hf.symm⟩

/-! ### One iteration -/

section Iteration

variable {size cap : ℕ} {st : State} {dst body : List Char}

/-- A NUL at the pointer is passed over. -/
theorem iter_nul (hp : st.pending.head? = some nul) :
    iter size cap st dst = some (false, dst, { st with pending := st.pending.tail }) := by
  rw [iter, if_pos hp]

variable (hbody : ∀ c ∈ body, c ≠ '\n' ∧ c ≠ nul)

include hbody

variable {s : List Char}

/-- An iteration that finds the end of the line. -/
theorem iter_line (hlen : dst.length + body.length < cap) (hp : st.pending = body ++ '\n' :: s) :
    iter size cap st dst = some (false, dst ++ (body ++ ['\n']), { st with pending := s }) := by
  have hhead : st.pending.head? ≠ some nul := by
    rw [hp]
    cases body with
    | nil => exact fun h => absurd (Option.some.inj h) (by decide)
    | cons c body => exact fun h => (hbody c List.mem_cons_self).2 (Option.some.inj h)
  have hseg : segment st.pending = (body ++ ['\n'], s) := hp ▸ segment_body_append hbody _
  have htake : (body ++ ['\n']).take (cap - dst.length) = body ++ ['\n'] := by
    rw [List.take_of_length_le]
    rw [List.length_append, List.length_singleton]
    omega
  have hne : st.pending ≠ [] := by simp [hp]
  have hlast : (body ++ ['\n']).getLast? = some '\n' := List.getLast?_concat
  dsimp only [iter]
  rw [if_neg hhead, hseg, htake, if_pos ⟨hne, Or.inr hlast⟩]

variable (hlen : body = [] ∨ dst.length + body.length < cap)

include hlen

/-- An iteration without the end of the line: it goes on with a refill at the end of the buffer,
    and ends in front of a NUL. -/
theorem iter_part (hp : segment st.pending = (body, s)) (hhead : st.pending.head? ≠ some nul) :
    iter size cap st dst =
      if s = [] then (refillFrom size st).map fun st' => (true, dst ++ body, st')
      else some (false, dst ++ body, { st with pending := s }) := by
  have htake : body.take (cap - dst.length) = body := by
    rcases hlen with rfl | hlen
    · exact List.take_nil
    · exact List.take_of_length_le (by omega)
  have hlast : body.getLast? ≠ some '\n' :=
    fun h => (hbody _ (List.mem_of_getLast? h)).1 rfl
  -- if nothing is copied, the pointer was at the end of the buffer
  have hstop : ¬ (st.pending ≠ [] ∧
      ((dst ++ body).length = cap ∨ body.getLast? = some '\n')) := by
    rintro ⟨hne, hcap | hnl⟩
    · rcases hlen with rfl | hlen
      · exact segment_ne_nil hne hhead (congrArg Prod.fst hp)
      · rw [List.length_append] at hcap
        omega
    · exact hlast hnl
  dsimp only [iter]
  rw [if_neg hhead, hp, htake, if_neg hstop]

/-- An iteration that reaches the end of the buffer inside the line. -/
theorem iter_body (hp : st.pending = body) :
    iter size cap st dst = (refillFrom size st).map fun st' => (true, dst ++ body, st') := by
  have hseg : segment st.pending = (body, []) := by
    rw [hp, ← List.append_nil body, segment_body_append hbody]
    rfl
  have hhead : st.pending.head? ≠ some nul := by
    rw [hp]
    exact fun h => (hbody _ (List.mem_of_mem_head? h)).2 rfl
  rw [iter_part hbody hlen hseg hhead, if_pos rfl]

/-- An iteration that meets the end of the file. -/
theorem iter_last (hp : st.pending = body ++ nul :: s) :
    ∃ pending, iter size cap st dst = some (false, dst ++ body, { st with pending }) ∧
      (pending = s ∨ body ≠ [] ∧ pending = nul :: s) := by
  by_cases hne : body = []
  · subst hne
    refine ⟨s, ?_, .inl rfl⟩
    rw [iter_nul (by rw [hp]; rfl), List.append_nil, hp]
    rfl
  · have hseg : segment st.pending = (body, nul :: s) := by
      rw [hp, segment_body_append hbody]
      exact Prod.ext (List.append_nil body) rfl
    have hhead : st.pending.head? ≠ some nul := by
      obtain ⟨c, rest, rfl⟩ := List.exists_cons_of_ne_nil hne
      rw [hp]
      exact fun h => (hbody c List.mem_cons_self).2 (Option.some.inj h)
    refine ⟨nul :: s, ?_, .inr ⟨hne, rfl⟩⟩
    rw [iter_part hbody hlen hseg hhead, if_neg (List.cons_ne_nil nul s)]

end Iteration

/-! ### What a call returns -/

section Returns

variable {size cap : ℕ} {st st' : State} {dst : List Char}

/-- The bytes other than NUL that the reader can still return. -/
def State.live (st : State) : ℕ := st.pending.countP (· ≠ nul) + st.file.length

/-- What is read is no longer in the file. -/
theorem fill_length {script : List ReadAnswer} {file : List Char} {toRead : ℕ}
    {r : List Char × List Char × List ReadAnswer} (h : fill script file toRead = some r) :
    r.1.length + r.2.1.length ≤ file.length := by
  induction script generalizing file toRead r with
  | nil =>
    obtain rfl := Option.some.inj h
    rw [List.length_take, List.length_drop]
    omega
  | cons answer script ih =>
    unfold fill at h
    split_ifs at h with hzero
    · obtain rfl := Option.some.inj h
      rw [List.length_nil, Nat.zero_add]
    · cases answer with
      | fail => exact absurd h nofun
      | eintr => exact ih h
      | upTo k =>
        dsimp only at h
        split_ifs at h with hgot
        · obtain rfl := Option.some.inj h
          rw [List.length_nil, Nat.zero_add]
        · obtain ⟨r', hfill, rfl⟩ := Option.map_eq_some_iff.mp h
          have hle := ih hfill
          have hgot_le := List.length_take_le' (min toRead (k + 1)) file
          rw [List.length_drop] at hle
          show (file.take (min toRead (k + 1)) ++ r'.1).length + r'.2.1.length ≤ file.length
          rw [List.length_append]
          omega

theorem live_refillFrom (h : refillFrom size st = some st') : st'.live ≤ st.file.length := by
  obtain ⟨r, hfill, rfl⟩ := Option.map_eq_some_iff.mp h
  have hpad : (List.replicate (size - r.1.length) nul).countP (· ≠ nul) = 0 := by
    rw [List.countP_eq_zero]
    intro c hc
    simp [List.eq_of_mem_replicate hc]
  have hcount := List.countP_le_length (p := (· ≠ nul)) (l := r.1)
  have hlen := fill_length hfill
  simp only [State.live, List.countP_append, hpad]
  omega

/-- What a reader has left behind a segment. -/
theorem live_segment (st : State) :
    (segment st.pending).1.length + State.live { st with pending := (segment st.pending).2 } =
      st.live := by
  have hall : (segment st.pending).1.countP (· ≠ nul) = (segment st.pending).1.length := by
    rw [List.countP_eq_length]
    intro c hc
    have hne : c ≠ nul := fun h => nul_notMem_segment _ (h ▸ hc)
    simpa using hne
  have happ := congrArg (List.countP (· ≠ nul)) (segment_append st.pending)
  rw [List.countP_append, hall] at happ
  simp only [State.live]
  omega

/-- **One iteration.**  It appends bytes other than NUL, as many as fit, that the reader then no
    longer has. -/
theorem iter_spec {new : Bool} {dst' : List Char}
    (h : iter size cap st dst = some (new, dst', st')) :
    ∃ got, dst' = dst ++ got ∧ nul ∉ got ∧ got.length + st'.live ≤ st.live := by
  have htake := List.length_take_le' (cap - dst.length) (segment st.pending).1
  have hnul : nul ∉ (segment st.pending).1.take (cap - dst.length) :=
    fun h => nul_notMem_segment _ (List.mem_of_mem_take h)
  have hlive := live_segment st
  dsimp only [iter] at h
  split_ifs at h with hhead hend hrest
  · obtain ⟨⟩ := h
    refine ⟨[], (List.append_nil _).symm, List.not_mem_nil, ?_⟩
    have htail := (List.tail_sublist st.pending).countP_le (p := (· ≠ nul))
    simp only [State.live, List.length_nil]
    omega
  · obtain ⟨⟩ := h
    exact ⟨_, rfl, hnul, by omega⟩
  · obtain ⟨st₁, hrefill, heq⟩ := Option.map_eq_some_iff.mp h
    obtain ⟨⟩ := heq
    refine ⟨_, rfl, hnul, ?_⟩
    have hfile := live_refillFrom hrefill
    simp only [State.live, hrest] at hlive hfile ⊢
    omega
  · obtain ⟨⟩ := h
    exact ⟨_, rfl, hnul, by omega⟩

theorem loop_spec {n : ℕ} {out : List Char} (h : loop size cap n st dst = some (out, st')) :
    ∃ got, out = dst ++ got ∧ nul ∉ got ∧ got.length + st'.live ≤ st.live := by
  induction n generalizing st dst with
  | zero => exact absurd h nofun
  | succ n ih =>
    rw [loop] at h
    split at h
    · exact absurd h nofun
    · next dst₁ st₁ heq =>
      obtain ⟨got, rfl, hnul, hlive⟩ := iter_spec heq
      obtain ⟨more, rfl, hnul', hlive'⟩ := ih h
      refine ⟨got ++ more, List.append_assoc .., ?_, ?_⟩
      · exact fun hm => (List.mem_append.mp hm).elim hnul hnul'
      · rw [List.length_append]
        omega
    · next dst₁ st₁ heq =>
      obtain ⟨⟩ := h
      exact iter_spec heq

/-- **A call.**  What it returns has no NUL, and the reader lost as many bytes. -/
theorem bufreadFrom_spec {dstsize : UInt64} {line : List Char}
    (h : bufreadFrom size dstsize st = some (line, st')) :
    nul ∉ line ∧ line.length + st'.live ≤ st.live := by
  obtain ⟨-, hloop⟩ := Option.ite_none_left_eq_some.mp h
  obtain ⟨got, rfl, hnul, hlive⟩ := loop_spec hloop
  exact ⟨hnul, hlive⟩

end Returns

/-! ### One call -/

/-- A reader with a text left to return: the pointer is behind the start of the buffer, no read will
    fail, and behind the text come NULs only. -/
structure Holds (size : ℕ) (st : State) (text : List Char) : Prop where
  inside : st.pending.length < size
  no_fail : .fail ∉ st.script
  no_nul : nul ∉ st.file
  text_eq : ∃ k, st.pending ++ st.file = text ++ List.replicate k nul

section Call

variable {size cap : ℕ} {st : State} {dst body : List Char}
  (hbody : ∀ c ∈ body, c ≠ '\n' ∧ c ≠ nul) (hpending : st.pending.length ≤ size)
  (hfail : .fail ∉ st.script) (hnul : nul ∉ st.file)

/-- What a refill gives the next iteration. -/
structure Refilled (size : ℕ) (st st' : State) : Prop where
  full : st'.pending.length = size
  no_fail : .fail ∉ st'.script
  no_nul : nul ∉ st'.file
  text_eq : ∃ k, st'.pending ++ st'.file = st.file ++ List.replicate k nul
  file_length : st'.file.length = st.file.length - size

include hfail hnul in
theorem refillFrom_refilled (size : ℕ) :
    ∃ st', refillFrom size st = some st' ∧ Refilled size st st' := by
  obtain ⟨script', hfail', hrefill⟩ := refillFrom_eq hfail size
  refine ⟨_, hrefill, ?_, hfail', fun h => hnul (List.mem_of_mem_drop h),
    ⟨_, refill_append _ _⟩, List.length_drop⟩
  rw [List.length_append, List.length_take, List.length_replicate]
  omega

include hbody hpending hfail hnul

variable {n k : ℕ}

/-- **A line with its newline** is returned whole, from any point inside it, however many refills
    that takes. -/
theorem loop_line (hsize : 0 < size) (hn : st.file.length < n)
    (hlen : dst.length + body.length < cap) {rest : List Char}
    (htext : st.pending ++ st.file = body ++ '\n' :: (rest ++ List.replicate k nul)) :
    ∃ st', loop size cap n st dst = some (dst ++ (body ++ ['\n']), st') ∧ Holds size st' rest := by
  induction n generalizing st dst body k with
  | zero => exact absurd hn (Nat.not_lt_zero _)
  | succ n ih =>
    rcases Nat.lt_or_ge body.length st.pending.length with hlt | hge
    · obtain ⟨s, hp, hs⟩ := ends_in_buffer hlt htext
      refine ⟨{ st with pending := s }, ?_, ?_, hfail, hnul, k, hs⟩
      · rw [loop, iter_line hbody hlen hp]
      · rw [hp, List.length_append, List.length_cons] at hpending
        show s.length < size
        omega
    · -- the rest of the line is at the head of the file
      obtain ⟨tail, rfl, hfile⟩ := goes_on_in_file hge htext
      obtain ⟨hhead, htail⟩ := List.forall_mem_append.mp hbody
      obtain ⟨st₁, hrefill, h₁⟩ := refillFrom_refilled hfail hnul size
      have hpos : 0 < st.file.length := by
        rw [hfile, List.length_append, List.length_cons]
        omega
      rw [List.length_append] at hlen
      obtain ⟨pad, hpad⟩ := h₁.text_eq
      have htext₁ : st₁.pending ++ st₁.file =
          tail ++ '\n' :: (rest ++ List.replicate (k + pad) nul) := by
        rw [hpad, hfile, ← List.replicate_append_replicate]
        simp only [List.append_assoc, List.cons_append]
      obtain ⟨st', hloop, hholds⟩ := ih htail (Nat.le_of_eq h₁.full) h₁.no_fail h₁.no_nul
        (by rw [h₁.file_length]; omega)
        (show (dst ++ st.pending).length + tail.length < cap by rw [List.length_append]; omega)
        htext₁
      refine ⟨st', ?_, hholds⟩
      rw [loop, iter_body hhead (.inr (by omega)) rfl, hrefill]
      show loop size cap n st₁ (dst ++ st.pending) = _
      rw [hloop]
      simp only [List.append_assoc]

/-- The end of the file in the buffer. -/
theorem loop_eof (hn : 0 < n) (hlen : body = [] ∨ dst.length + body.length < cap)
    (htext : st.pending ++ st.file = body ++ List.replicate k nul)
    (hlt : body.length < st.pending.length) :
    ∃ st', loop size cap n st dst = some (dst ++ body, st') ∧ Holds size st' [] := by
  obtain ⟨n, rfl⟩ : ∃ m, n = m + 1 := ⟨n - 1, by omega⟩
  -- the text behind the body starts with a NUL of the buffer
  obtain ⟨s, hp⟩ : ∃ s, st.pending = body ++ s := by
    rcases List.append_eq_append_iff.mp htext with ⟨a, rfl, -⟩ | ⟨a, ha, -⟩
    · rw [List.length_append] at hlt
      omega
    · exact ⟨a, ha⟩
  rw [hp, List.append_assoc] at htext
  obtain ⟨-, hs, hfile⟩ := List.append_eq_replicate_iff.mp (List.append_cancel_left htext)
  obtain ⟨j, hj⟩ : ∃ j, s.length = j + 1 := by
    rw [hp, List.length_append] at hlt
    exact ⟨s.length - 1, by omega⟩
  rw [hj] at hs
  have hnuls : st.pending = body ++ nul :: List.replicate j nul := by
    rw [hp, hs]
    rfl
  rw [hnuls, List.length_append, List.length_cons, List.length_replicate] at hpending
  obtain ⟨pending, hiter, hcases⟩ : ∃ pending, iter size cap st dst = _ ∧ _ :=
    iter_last hbody hlen hnuls
  refine ⟨{ st with pending }, by rw [loop, hiter], ?_, hfail, hnul, ?_⟩
  · rcases hcases with rfl | ⟨hne, rfl⟩
    · rw [List.length_replicate]
      omega
    · have hpos := List.length_pos_iff.mpr hne
      rw [List.length_cons, List.length_replicate]
      omega
  · rw [hfile]
    rcases hcases with rfl | ⟨-, rfl⟩
    · exact ⟨j + st.file.length, List.replicate_append_replicate⟩
    · have happ : List.replicate (j + 1) nul ++ List.replicate st.file.length nul = _ :=
        List.replicate_append_replicate
      exact ⟨_, happ⟩

/-- **A last line without newline**, or nothing, is returned up to the end of the file. -/
theorem loop_last (hsize : 0 < size) (hn : st.file.length + 2 ≤ n)
    (hlen : body = [] ∨ dst.length + body.length < cap)
    (htext : st.pending ++ st.file = body ++ List.replicate k nul) :
    ∃ st', loop size cap n st dst = some (dst ++ body, st') ∧ Holds size st' [] := by
  induction n generalizing st dst body k with
  | zero => omega
  | succ n ih =>
    rcases Nat.lt_or_ge body.length st.pending.length with hlt | hge
    · exact loop_eof hbody hpending hfail hnul (Nat.succ_pos n) hlen htext hlt
    · obtain ⟨tail, rfl, hfile⟩ := goes_on_in_file hge htext
      obtain ⟨hhead, htail⟩ := List.forall_mem_append.mp hbody
      obtain ⟨st₁, hrefill, h₁⟩ := refillFrom_refilled hfail hnul size
      have hlen' : tail = [] ∨ (dst ++ st.pending).length + tail.length < cap := by
        rcases hlen with hnil | hlen
        · exact .inl (List.append_eq_nil_iff.mp hnil).2
        · rw [List.length_append] at hlen ⊢
          exact .inr (by omega)
      have hlen₀ : st.pending = [] ∨ dst.length + st.pending.length < cap := by
        rcases hlen with hnil | hlen
        · exact .inl (List.append_eq_nil_iff.mp hnil).1
        · rw [List.length_append] at hlen
          exact .inr (by omega)
      obtain ⟨pad, hpad⟩ := h₁.text_eq
      have htext₁ : st₁.pending ++ st₁.file = tail ++ List.replicate (k + pad) nul := by
        rw [hpad, hfile, ← List.replicate_append_replicate, List.append_assoc]
      have hloop : ∃ st', loop size cap n st₁ (dst ++ st.pending) =
          some (dst ++ st.pending ++ tail, st') ∧ Holds size st' [] := by
        -- the refill that meets the end of the file is the last
        rcases Nat.lt_or_ge tail.length st₁.pending.length with hlt | hge₁
        · exact loop_eof htail (Nat.le_of_eq h₁.full) h₁.no_fail h₁.no_nul (by omega) hlen' htext₁
            hlt
        · refine ih htail (Nat.le_of_eq h₁.full) h₁.no_fail h₁.no_nul ?_ hlen' htext₁
          rw [h₁.full] at hge₁
          rw [h₁.file_length]
          rw [hfile, List.length_append] at hn ⊢
          omega
      obtain ⟨st', hloop, hholds⟩ := hloop
      refine ⟨st', ?_, hholds⟩
      rw [loop, iter_body hhead hlen₀ rfl, hrefill, ← List.append_assoc]
      exact hloop

end Call

/-! ### Successive calls -/

section Calls

variable {size : ℕ} {dstsize : UInt64} {st : State}

/-- A call at the start of a line with newline. -/
theorem Holds.call_line (hsize : 0 < size) {body rest : List Char}
    (hbody : ∀ c ∈ body, c ≠ '\n' ∧ c ≠ nul) (hlen : body.length < (dstsize - 1).toNat)
    (h : Holds size st (body ++ '\n' :: rest)) :
    ∃ st', bufreadFrom size dstsize st = some (body ++ ['\n'], st') ∧ Holds size st' rest := by
  obtain ⟨hinside, hfail, hnul, k, htext⟩ := h
  rw [List.append_assoc, List.cons_append] at htext
  rw [bufreadFrom, if_neg (Nat.not_le.mpr hinside)]
  exact loop_line hbody (Nat.le_of_lt hinside) hfail hnul hsize (by omega)
    (by rwa [List.length_nil, Nat.zero_add]) htext

/-- A call at the start of a last line without newline, or at the end of the file. -/
theorem Holds.call_last (hsize : 0 < size) {body : List Char}
    (hbody : ∀ c ∈ body, c ≠ '\n' ∧ c ≠ nul)
    (hlen : body = [] ∨ body.length < (dstsize - 1).toNat) (h : Holds size st body) :
    ∃ st', bufreadFrom size dstsize st = some (body, st') ∧ Holds size st' [] := by
  obtain ⟨hinside, hfail, hnul, k, htext⟩ := h
  rw [bufreadFrom, if_neg (Nat.not_le.mpr hinside)]
  refine loop_last hbody (Nat.le_of_lt hinside) hfail hnul hsize (Nat.le_refl _) ?_ htext
  rwa [List.length_nil, Nat.zero_add]

theorem bufreads_succ {n : ℕ} {line : List Char} {results : List (List Char)} {st₁ st' : State}
    (hcall : bufreadFrom size dstsize st = some (line, st₁))
    (hrest : bufreads size dstsize n st₁ = some (results, st')) :
    bufreads size dstsize (n + 1) st = some (line :: results, st') := by
  rw [bufreads, hcall]
  show (bufreads size dstsize n st₁).map _ = _
  rw [hrest]
  rfl

/-- More empty results behind the first `n` make no difference to them. -/
theorem take_succ_replicate (ls : List (List Char)) (n : ℕ) :
    (ls ++ List.replicate (n + 1) []).take n = (ls ++ List.replicate n []).take n := by
  rw [List.take_append, List.take_append, List.take_replicate, List.take_replicate]
  congr 2
  omega

/-- **Calls and lines**: from a reader that holds lines each call returns the next of them, and
    behind the last one nothing. -/
theorem bufreads_of_holds (hsize : 0 < size) (n : ℕ) {ls : List (List Char)} (hls : AreLines ls)
    (hlen : ∀ l ∈ ls, l.length < (dstsize - 1).toNat) (hnul : nul ∉ ls.flatten)
    (h : Holds size st ls.flatten) :
    ∃ st', bufreads size dstsize n st = some ((ls ++ List.replicate n []).take n, st') := by
  induction n generalizing ls st with
  | zero => exact ⟨st, rfl⟩
  | succ n ih =>
    have hplain : ∀ {body : List Char}, '\n' ∉ body → nul ∉ body →
        ∀ c ∈ body, c ≠ '\n' ∧ c ≠ nul := fun hnl hz c hc =>
      ⟨fun heq => hnl (heq ▸ hc), fun heq => hz (heq ▸ hc)⟩
    cases hls with
    | nil =>
      obtain ⟨st₁, hcall, h₁⟩ := h.call_last hsize (List.forall_mem_nil _) (.inl rfl)
      obtain ⟨st', hrest⟩ := ih .nil (List.forall_mem_nil _) List.not_mem_nil h₁
      refine ⟨st', (bufreads_succ hcall hrest).trans ?_⟩
      simp [List.replicate_succ]
    | @last body hne hbody =>
      rw [List.flatten_singleton] at h hnul
      obtain ⟨st₁, hcall, h₁⟩ := h.call_last hsize (hplain hbody hnul)
        (.inr (hlen body List.mem_cons_self))
      obtain ⟨st', hrest⟩ := ih .nil (List.forall_mem_nil _) List.not_mem_nil h₁
      refine ⟨st', (bufreads_succ hcall hrest).trans ?_⟩
      rw [List.cons_append, List.take_succ_cons, take_succ_replicate]
    | @cons body ls hbody hls =>
      rw [List.flatten_cons, List.append_assoc, List.singleton_append] at h hnul
      obtain ⟨hline, hlen'⟩ := List.forall_mem_cons.mp hlen
      rw [List.length_append, List.length_singleton] at hline
      have hnul₁ : nul ∉ body := fun hz => hnul (List.mem_append_left _ hz)
      have hnul₂ : nul ∉ ls.flatten := fun hz =>
        hnul (List.mem_append_right _ (List.mem_cons_of_mem _ hz))
      have hfits : body.length < (dstsize - 1).toNat := by omega
      obtain ⟨st₁, hcall, h₁⟩ := h.call_line hsize (hplain hbody hnul₁) hfits
      obtain ⟨st', hrest⟩ := ih hls hlen' hnul₂ h₁
      refine ⟨st', (bufreads_succ hcall hrest).trans ?_⟩
      rw [List.cons_append, List.take_succ_cons, take_succ_replicate]

end Calls

/-- **The lines of a file**: with the pointer at the end of the buffer, the calls return the lines
    one by one, and then nothing, however the reads split the data. -/
theorem bufreads_lines (file : List Char) (hnul : nul ∉ file) {size : ℕ} (hsize : 0 < size)
    (dstsize : UInt64) (hlen : ∀ l ∈ lines file, l.length < (dstsize - 1).toNat)
    (script : List ReadAnswer) (hfail : .fail ∉ script) (n : ℕ) :
    (∃ st', bufreads size dstsize n ⟨[], file, script⟩ =
        some ((lines file ++ List.replicate n []).take n, st')) ∧
      AreLines (lines file) ∧ (lines file).flatten = file := by
  refine ⟨?_, areLines_lines file, flatten_lines file⟩
  apply bufreads_of_holds hsize n (areLines_lines file) hlen
  · rwa [flatten_lines]
  · rw [flatten_lines]
    exact ⟨hsize, hfail, hnul, 0, (List.append_nil file).symm⟩

/-- Two lines, with short and interrupted reads and a buffer of two bytes. -/
theorem bufreads_lines_two :
    ∃ st', bufreads 2 100 3 ⟨[], ['a', 'b', '\n', 'c'], [.upTo 0, .eintr, .eintr]⟩ =
      some ([['a', 'b', '\n'], ['c'], []], st') := by
  have hnul : nul ∉ ['a', 'b', '\n', 'c'] := by decide
  have hlen : ∀ l ∈ lines ['a', 'b', '\n', 'c'], l.length < ((100 : UInt64) - 1).toNat := by decide
  have hfail : ReadAnswer.fail ∉ [.upTo 0, .eintr, .eintr] := by decide
  exact (bufreads_lines _ hnul (Nat.succ_pos 1) 100 hlen _ hfail 3).1

end LineReader

end Firestarter.Util
