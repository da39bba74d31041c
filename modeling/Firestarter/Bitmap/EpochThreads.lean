import Firestarter.Bitmap.Epoch

namespace Firestarter.Bitmap.EpochThreads

open FlatMem Ltckpt Epoch

/-!
# The epoch bitmap under threads (`bitmap_plain_epoch.h` with `LTCKPT_BITMAP_SYNCHRONIZE`)

With `LTCKPT_BITMAP_SYNCHRONIZE` a thread copies the region into a buffer of its own first, and
only the thread whose compare-and-swap moves the bitmap byte to the epoch publishes its buffer to
the shadow.  The threads interleave byte by byte here: the test of the byte, the load of `old`,
every byte of either copy and every byte of a store are moves of their own.  Memory is
sequentially consistent, and a checkpoint is taken when no thread is inside a hook.

* `hookMove` — one move of `ltckpt_set_bit` and `_ltckpt_save_sized_region`;
* `SyncInv` — an unmarked region is as it was at the checkpoint, a copy under way of one that is
  unmarked is right so far, and a marked region has its shadow or one thread about to write it;
* `syncRun_exact` — every interleaving keeps it, over any number of checkpoints.
-/

/-! ### Threads -/

/-- Where a thread stands in `ltckpt_set_bit(a)`. -/
inductive Pc where
  /-- outside the hooks -/
  | idle
  /-- about to test `ltckpt_epoch != *p` -/
  | check (a : ℕ)
  /-- in `_ltckpt_save_sized_region`, about to read `old` and to test it -/
  | load (a : ℕ)
  /-- `memcpy(saved_bytes, src, LTCKPT_BITMAP_CLICK)`, with the bytes copied so far -/
  | copy (a : ℕ) (old : UInt8) (savedBytes : List UInt8)
  /-- `memcpy(dst, saved_bytes, LTCKPT_BITMAP_CLICK)`, with the number of bytes written so far -/
  | publish (a : ℕ) (savedBytes : List UInt8) (done : ℕ)
  deriving DecidableEq, Repr

/-- A thread: where it stands and, for the statement, the regions its hook calls have returned
    for since the last checkpoint. -/
structure Thread where
  pc : Pc
  touched : List ℕ
  deriving DecidableEq, Repr

/-- The hook for the address `a` returns. -/
def Thread.leave (t : Thread) (a : ℕ) : Thread :=
  ⟨.idle, addrToRegion bitmapClick a :: t.touched⟩

/-- The next move of a thread inside the hook. -/
def hookMove (st : EpochState) (t : Thread) : Option (EpochState × Thread) :=
  match t.pc with
  | .idle => none
  | .check a =>
    if st.epoch ≠ st.mem (addrToBitmap a) then some (st, { t with pc := .load a })
    else some (st, t.leave a)
  | .load a =>
    let old := st.mem (addrToBitmap a)
    if old ≠ st.epoch then some (st, { t with pc := .copy a old [] })
    else some (st, t.leave a)
  | .copy a old savedBytes =>
    if savedBytes.length < bitmapClick then
      let src := addrToRegion bitmapClick a
      some (st, { t with pc := .copy a old (savedBytes ++ [st.mem (src + savedBytes.length)]) })
    else if st.mem (addrToBitmap a) = old then
      -- the compare-and-swap succeeds
      some ({ st with mem := write st.mem (addrToBitmap a) [st.epoch] },
        { t with pc := .publish a savedBytes 0 })
    else some (st, t.leave a)
  | .publish a savedBytes done =>
    if done < bitmapClick then
      let dst := primaryToShadow (addrToRegion bitmapClick a)
      some ({ st with mem := write st.mem (dst + done) [savedBytes.getD done 0] },
        { t with pc := .publish a savedBytes (done + 1) })
    else some (st, t.leave a)

/-! ### Interleavings -/

/-- What a thread does. -/
inductive Move where
  /-- it calls `ltckpt_set_bit(a)` -/
  | hook (a : ℕ)
  /-- it goes on inside the hook -/
  | go
  /-- it stores a byte -/
  | store (x : ℕ) (b : UInt8)
  deriving DecidableEq, Repr

/-- One event of the program: a thread moves, or a checkpoint is due. -/
inductive Event (n : ℕ) where
  | thread (i : Fin n) (m : Move)
  | topOfTheLoop
  deriving DecidableEq, Repr

/-- The shared state, the threads and, for the statement, the memory at the last checkpoint. -/
structure SyncState (n : ℕ) where
  st : EpochState
  base : Mem
  threads : Fin n → Thread

/-- The state at program start. -/
def syncInit (n : ℕ) (m : Mem) (ctx : Ctx) : SyncState n :=
  ⟨⟨m, 1, true, ctx⟩, m, fun _ => ⟨.idle, []⟩⟩

/-- A move of one thread.  Hooks are called for addresses of the window, and a thread stores only
    to a region that a hook call of its own has returned for since the last checkpoint. -/
def threadMove (W : Window) (st : EpochState) (t : Thread) : Move → Option (EpochState × Thread)
  | .hook a => if t.pc = .idle ∧ W.Holds a 1 then some (st, { t with pc := .check a }) else none
  | .go => hookMove st t
  | .store x b =>
    if t.pc = .idle ∧ W.Holds x 1 ∧ addrToRegion bitmapClick x ∈ t.touched then
      some ({ st with mem := write st.mem x [b] }, t)
    else none

/-- One event.  The top-of-the-loop hook is called when every thread is outside the hooks; a call
    that takes a checkpoint starts the account of the touched regions anew. -/
def syncStep {n : ℕ} (W : Window) (s : SyncState n) : Event n → Option (SyncState n)
  | .thread i m =>
    (threadMove W s.st (s.threads i) m).map fun r =>
      { s with st := r.1, threads := Function.update s.threads i r.2 }
  | .topOfTheLoop =>
    if ∀ i, (s.threads i).pc = .idle then
      if ctxSkipsTol s.st.ctx then some { s with st := topOfTheLoop s.st }
      else some ⟨topOfTheLoop s.st, s.st.mem, fun _ => ⟨.idle, []⟩⟩
    else none

/-! ### What the three kinds of writes change -/

section Effects

variable {W : Window} (m : Mem)

/-- Moving a byte of the bitmap changes no region. -/
theorem contentOf_mark (a : ℕ) (e : UInt8) {q : ℕ} (hq : W.Region q) :
    contentOf (write m (addrToBitmap a) [e]) q = contentOf m q := by
  have hbyte := addrToBitmap_mem a
  have hbitmap := W.apart_bitmap
  have hsub := hq.subset
  refine read_write_of_apart m ?_
  simp only [Apart, Window.Holds, List.length_singleton] at *
  omega

/-- Nor any shadow. -/
theorem shadowOf_mark (a : ℕ) (e : UInt8) {q : ℕ} (hq : W.Region q) :
    shadowOf (write m (addrToBitmap a) [e]) q = shadowOf m q := by
  have hbyte := addrToBitmap_mem a
  have hshadow := shadow_mem W hq
  refine read_write_of_apart m ?_
  -- the bitmap lies below the shadow space
  simp only [Apart, List.length_singleton, bitmapStart, bitmapSize, shadowSpaceOffset,
    shadowSpaceSize, bitmapClick] at *
  omega

/-- It is the byte of one region only. -/
theorem bitmap_mark {a : ℕ} (ha : W.Holds a 1) (e : UInt8) {q : ℕ} (hq : W.Region q) :
    write m (addrToBitmap a) [e] (addrToBitmap q) =
      if q = addrToRegion bitmapClick a then e else m (addrToBitmap q) := by
  have hsame := addrToBitmap_region a
  by_cases hqa : q = addrToRegion bitmapClick a
  · rw [if_pos hqa, hqa, hsame, write_of_inside m _ _ le_rfl (by simp)]
    simp
  · have hne : addrToBitmap q ≠ addrToBitmap a := fun heq =>
      hqa (addrToBitmap_inj W hq (W.region_of_holds ha) (heq.trans hsame.symm))
    rw [if_neg hqa, write_of_outside]
    rw [List.length_singleton]
    omega

section Publish

variable {r k : ℕ} (hr : W.Region r) (hk : k < bitmapClick) (b : UInt8)

include hr hk

/-- A byte written to a shadow changes no region. -/
theorem contentOf_publish {q : ℕ} (hq : W.Region q) :
    contentOf (write m (primaryToShadow r + k) [b]) q = contentOf m q := by
  have hshadow := shadow_mem W hr
  have hspace := W.apart_shadow
  have hsub := hq.subset
  refine read_write_of_apart m ?_
  simp only [Apart, Window.Holds, List.length_singleton] at *
  omega

/-- Nor a byte of the bitmap. -/
theorem bitmap_publish (q : ℕ) :
    write m (primaryToShadow r + k) [b] (addrToBitmap q) = m (addrToBitmap q) := by
  have hshadow := shadow_mem W hr
  have hbyte := addrToBitmap_mem q
  refine write_of_outside m _ _ ?_
  simp only [bitmapStart, bitmapSize, shadowSpaceOffset, shadowSpaceSize, bitmapClick] at *
  omega

/-- Nor the shadow of another region. -/
theorem shadowOf_publish_of_ne {q : ℕ} (hq : W.Region q) (hne : q ≠ r) :
    shadowOf (write m (primaryToShadow r + k) [b]) q = shadowOf m q := by
  have hapart := shadow_apart W hq hr hne
  refine read_write_of_apart m ?_
  simp only [Apart, List.length_singleton] at *
  omega

omit hr in
/-- The shadow itself grows by the byte written. -/
theorem shadowOf_publish_take :
    (shadowOf (write m (primaryToShadow r + k) [b]) r).take (k + 1) =
      (shadowOf m r).take k ++ [b] := by
  have hk' : k + 1 ≤ bitmapClick := hk
  rw [shadowOf, shadowOf, take_read _ _ hk', take_read _ _ (Nat.le_of_lt hk), read_add,
    read_write_of_apart _ (Or.inr le_rfl)]
  exact congrArg _ (read_write m (primaryToShadow r + k) [b])

end Publish

section Store

variable {x : ℕ} (hx : W.Holds x 1) (b : UInt8)

include hx

/-- A store to the window changes no byte of the bitmap. -/
theorem bitmap_store (q : ℕ) : write m x [b] (addrToBitmap q) = m (addrToBitmap q) := by
  have hbyte := addrToBitmap_mem q
  have hbitmap := W.apart_bitmap
  refine write_of_outside m _ _ ?_
  simp only [Apart, Window.Holds, List.length_singleton] at *
  omega

/-- Nor any shadow. -/
theorem shadowOf_store {q : ℕ} (hq : W.Region q) : shadowOf (write m x [b]) q = shadowOf m q := by
  have hshadow := shadow_mem W hq
  have hspace := W.apart_shadow
  refine read_write_of_apart m ?_
  simp only [Apart, Window.Holds, List.length_singleton] at *
  omega

omit hx in
/-- Nor another region than the one it stores to. -/
theorem contentOf_store_of_ne {q : ℕ} (hq : W.Region q) (hne : q ≠ addrToRegion bitmapClick x) :
    contentOf (write m x [b]) q = contentOf m q := by
  have hmod := hq.1
  refine read_write_of_apart m ?_
  simp only [Apart, addrToRegion, List.length_singleton, bitmapClick] at *
  omega

end Store

end Effects

/-! ### The invariant -/

/-- The thread is writing the shadow of `r`. -/
def Pc.Publishing (r : ℕ) : Pc → Prop
  | .publish a _ _ => addrToRegion bitmapClick a = r
  | _ => False

/-- The byte of `r` is at the epoch. -/
def Marked (mem : Mem) (epoch : UInt8) (r : ℕ) : Prop := mem (addrToBitmap r) = epoch

/-- What holds of a thread at each place of the hook. -/
def PcOk (W : Window) (mem : Mem) (epoch : UInt8) (base : Mem) : Pc → Prop
  | .idle => True
  | .check a => W.Holds a 1
  | .load a => W.Holds a 1
  | .copy a old savedBytes =>
    let r := addrToRegion bitmapClick a
    W.Holds a 1 ∧ old ≠ epoch ∧ savedBytes.length ≤ bitmapClick ∧
      -- the buffer may hold anything once another thread has marked the region
      (¬ Marked mem epoch r → mem (addrToBitmap r) = old ∧
        savedBytes = (contentOf base r).take savedBytes.length)
  | .publish a savedBytes done =>
    let r := addrToRegion bitmapClick a
    W.Holds a 1 ∧ Marked mem epoch r ∧ savedBytes = contentOf base r ∧ done ≤ bitmapClick ∧
      (shadowOf mem r).take done = savedBytes.take done

/-- The regions in a thread's account are marked. -/
def TouchedOk (W : Window) (mem : Mem) (epoch : UInt8) (t : Thread) : Prop :=
  ∀ r ∈ t.touched, W.Region r ∧ Marked mem epoch r

/-- The bitmap, the shadows and the threads agree on which regions are saved. -/
structure SyncInv {n : ℕ} (W : Window) (mem : Mem) (epoch : UInt8) (base : Mem)
    (threads : Fin n → Thread) : Prop where
  /-- no byte is ahead of the epoch -/
  stale : ∀ r, W.Region r → mem (addrToBitmap r) ≤ epoch
  clean : ∀ r, W.Region r → ¬ Marked mem epoch r → contentOf mem r = contentOf base r
  saved : ∀ r, W.Region r → Marked mem epoch r →
    (∃ i, (threads i).pc.Publishing r) ∨ shadowOf mem r = contentOf base r
  /-- one thread at a time writes a shadow -/
  single : ∀ i j r, (threads i).pc.Publishing r → (threads j).pc.Publishing r → i = j
  pcOk : ∀ i, PcOk W mem epoch base (threads i).pc
  touchedOk : ∀ i, TouchedOk W mem epoch (threads i)

section Steps

variable {W : Window} {mem mem' : Mem} {epoch : UInt8} {base : Mem}

/-- Where bytes move to the epoch only, marks stay. -/
theorem Marked.mono {q : ℕ} (h : Marked mem epoch q)
    (hbyte : Marked mem' epoch q ∨ mem' (addrToBitmap q) = mem (addrToBitmap q)) :
    Marked mem' epoch q := by
  rcases hbyte with hmarked | hsame
  · exact hmarked
  · exact hsame.trans h

/-- A thread's place stays right while bytes move to the epoch only and nobody else writes the
    shadow the thread is writing. -/
theorem PcOk.mono {pc : Pc} (h : PcOk W mem epoch base pc) (hbyte : ∀ q, W.Region q →
      Marked mem' epoch q ∨ mem' (addrToBitmap q) = mem (addrToBitmap q))
    (hshadow : ∀ q, W.Region q → pc.Publishing q → shadowOf mem' q = shadowOf mem q) :
    PcOk W mem' epoch base pc := by
  cases pc with
  | copy a old savedBytes =>
    obtain ⟨ha, hold, hlen, hbuf⟩ := h
    have hregion := W.region_of_holds ha
    refine ⟨ha, hold, hlen, fun hnot => ?_⟩
    rw [(hbyte _ hregion).resolve_left hnot]
    exact hbuf fun hm => hnot (hm.mono (hbyte _ hregion))
  | publish a savedBytes done =>
    obtain ⟨ha, hm, hbuf, hdone, htake⟩ := h
    have hregion := W.region_of_holds ha
    refine ⟨ha, hm.mono (hbyte _ hregion), hbuf, hdone, ?_⟩
    rw [hshadow _ hregion rfl, htake]
  | _ => exact h

/-- And so does its account. -/
theorem TouchedOk.mono {t : Thread} (h : TouchedOk W mem epoch t) (hbyte : ∀ q, W.Region q →
      Marked mem' epoch q ∨ mem' (addrToBitmap q) = mem (addrToBitmap q)) :
    TouchedOk W mem' epoch t := fun r hr =>
  ⟨(h r hr).1, (h r hr).2.mono (hbyte r (h r hr).1)⟩

variable {n : ℕ} {threads : Fin n → Thread} {i : Fin n} {t : Thread}

section Thread

variable (h : SyncInv W mem epoch base threads)
include h

/-- Nobody publishes a region that is not marked. -/
theorem SyncInv.not_publishing {r : ℕ}
    (hnot : ¬ Marked mem epoch r) (j : Fin n) : ¬ (threads j).pc.Publishing r := by
  intro hp
  have hok := h.pcOk j
  cases hpc : (threads j).pc with
  | publish a savedBytes done =>
    rw [hpc] at hok hp
    exact hnot (hp ▸ hok.2.1)
  | _ =>
    rw [hpc] at hp
    exact hp

/-- **A move of one thread.**  A byte moves to the epoch only where the thread is to publish the
    region, a region changes only where it is marked, and a shadow only under the thread that
    publishes it.  The thread starts to publish unmarked regions only, and stops only with the
    shadow complete. -/
theorem SyncInv.step (hbyte : ∀ q, W.Region q → mem' (addrToBitmap q) = mem (addrToBitmap q) ∨
      Marked mem' epoch q ∧ t.pc.Publishing q)
    (hclean : ∀ q, W.Region q → ¬ Marked mem' epoch q → contentOf mem' q = contentOf mem q)
    (hshadow : ∀ q, W.Region q → ¬ t.pc.Publishing q → shadowOf mem' q = shadowOf mem q)
    (hstart : ∀ q, t.pc.Publishing q → (threads i).pc.Publishing q ∨ ¬ Marked mem epoch q)
    (hstop : ∀ q, (threads i).pc.Publishing q →
      t.pc.Publishing q ∨ shadowOf mem q = contentOf base q) (hok : PcOk W mem' epoch base t.pc)
    (htouched : TouchedOk W mem epoch t) :
    SyncInv W mem' epoch base (Function.update threads i t) := by
  have hmono := fun q hq => ((hbyte q hq).imp_right And.left).symm
  have hpub : ∀ {j q}, (Function.update threads i t j).pc.Publishing q →
      j = i ∧ t.pc.Publishing q ∨ j ≠ i ∧ (threads j).pc.Publishing q := by
    intro j q hp
    by_cases hj : j = i
    · subst hj
      rw [Function.update_self] at hp
      exact Or.inl ⟨rfl, hp⟩
    · rw [Function.update_of_ne hj] at hp
      exact Or.inr ⟨hj, hp⟩
  -- what the thread publishes after the move, no other thread publishes
  have hother : ∀ {j q}, j ≠ i → (threads j).pc.Publishing q → ¬ t.pc.Publishing q := by
    intro j q hj hp ht
    rcases hstart q ht with hi | hnot
    · exact hj (h.single j i q hp hi)
    · exact h.not_publishing hnot j hp
  refine ⟨fun q hq => ?_, fun q hq hm => ?_, fun q hq hm => ?_, fun j k q hj hk => ?_, ?_, ?_⟩
  · rcases hmono q hq with hm | hsame
    · exact UInt8.le_of_eq hm
    · exact hsame ▸ h.stale q hq
  · rw [hclean q hq hm]
    exact h.clean q hq fun hm' => hm (hm'.mono (hmono q hq))
  · by_cases ht : t.pc.Publishing q
    · exact Or.inl ⟨i, by rwa [Function.update_self]⟩
    · have hsame := (hbyte q hq).resolve_right fun hnew => ht hnew.2
      rw [hshadow q hq ht]
      rcases h.saved q hq (hsame.symm.trans hm) with ⟨j, hj⟩ | hsaved
      · by_cases hji : j = i
        · exact Or.inr ((hstop q (hji ▸ hj)).resolve_left ht)
        · exact Or.inl ⟨j, by rwa [Function.update_of_ne hji]⟩
      · exact Or.inr hsaved
  · rcases hpub hj with ⟨hji, ht⟩ | ⟨hji, hj'⟩ <;> rcases hpub hk with ⟨hki, ht'⟩ | ⟨hki, hk'⟩
    · rw [hji, hki]
    · exact (hother hki hk' ht).elim
    · exact (hother hji hj' ht').elim
    · exact h.single j k q hj' hk'
  · rw [Function.forall_update_iff threads fun _ u => PcOk W mem' epoch base u.pc]
    exact ⟨hok, fun j hj => (h.pcOk j).mono hmono fun q hq hp => hshadow q hq (hother hj hp)⟩
  · rw [Function.forall_update_iff threads fun _ u => TouchedOk W mem' epoch u]
    exact ⟨htouched.mono hmono, fun j _ => (h.touchedOk j).mono hmono⟩

/-- A move that leaves memory alone. -/
theorem SyncInv.quiet (hdone : ∀ r, (threads i).pc.Publishing r → shadowOf mem r = contentOf base r)
    (hnew : ∀ r, ¬ t.pc.Publishing r) (hok : PcOk W mem epoch base t.pc)
    (htouched : TouchedOk W mem epoch t) : SyncInv W mem epoch base (Function.update threads i t) :=
  h.step (fun _ _ => Or.inl rfl) (fun _ _ _ => rfl) (fun _ _ _ => rfl)
    (fun q hp => (hnew q hp).elim) (fun q hp => Or.inr (hdone q hp)) hok htouched

/-- **The compare-and-swap.**  A thread wins it only while the region is unmarked: its buffer is
    then what the region held at the checkpoint, and no other thread publishes the region. -/
theorem SyncInv.win {a : ℕ} {old : UInt8}
    {savedBytes : List UInt8} (hpc : (threads i).pc = .copy a old savedBytes)
    (hlen : ¬ savedBytes.length < bitmapClick) (hcas : mem (addrToBitmap a) = old) :
    SyncInv W (write mem (addrToBitmap a) [epoch]) epoch base
      (Function.update threads i { threads i with pc := .publish a savedBytes 0 }) := by
  have hok := h.pcOk i
  rw [hpc] at hok
  obtain ⟨ha, hold, -, hbuf⟩ := hok
  have hregion := W.region_of_holds ha
  have hnot : ¬ Marked mem epoch (addrToRegion bitmapClick a) := by
    rw [Marked, addrToBitmap_region, hcas]
    exact hold
  have hfull : savedBytes = contentOf base (addrToRegion bitmapClick a) := by
    rw [(hbuf hnot).2, List.take_of_length_le]
    rw [contentOf, read_length]
    omega
  have hmarked : Marked (write mem (addrToBitmap a) [epoch]) epoch
      (addrToRegion bitmapClick a) := by
    rw [Marked, bitmap_mark mem ha epoch hregion, if_pos rfl]
  refine h.step (fun q hq => ?_) (fun q hq _ => contentOf_mark mem a epoch hq)
    (fun q hq _ => shadowOf_mark mem a epoch hq) (fun q hq => Or.inr (hq ▸ hnot)) (fun q hq => ?_)
    ⟨ha, hmarked, hfull, Nat.zero_le _, by simp⟩ (h.touchedOk i)
  · by_cases hqa : q = addrToRegion bitmapClick a
    · exact Or.inr ⟨hqa ▸ hmarked, hqa.symm⟩
    · rw [bitmap_mark mem ha epoch hq, if_neg hqa]
      exact Or.inl rfl
  · rw [hpc] at hq
    exact hq.elim

/-- **A byte of the shadow.**  The thread that publishes the region writes it, and no other
    thread writes that shadow. -/
theorem SyncInv.publish {a k : ℕ} {savedBytes : List UInt8}
    (hpc : (threads i).pc = .publish a savedBytes k) (hk : k < bitmapClick) :
    SyncInv W (write mem (primaryToShadow (addrToRegion bitmapClick a) + k)
        [savedBytes.getD k 0]) epoch base
      (Function.update threads i { threads i with pc := .publish a savedBytes (k + 1) }) := by
  have hok := h.pcOk i
  rw [hpc] at hok
  obtain ⟨ha, hm, hbuf, -, htake⟩ := hok
  have hregion := W.region_of_holds ha
  have hlen : k < savedBytes.length := by rw [hbuf, contentOf, read_length]; exact hk
  have hsame := bitmap_publish mem hregion hk (savedBytes.getD k 0)
  refine h.step (fun q _ => Or.inl (hsame q)) (fun q hq _ => contentOf_publish mem hregion hk _ hq)
    (fun q hq hne => shadowOf_publish_of_ne mem hregion hk _ hq (Ne.symm hne))
    (fun q hq => Or.inl ?_) (fun q hq => Or.inl ?_)
    ⟨ha, (hsame _).trans hm, hbuf, hk, ?_⟩ (h.touchedOk i)
  · rw [hpc]
    exact hq
  · rw [hpc] at hq
    exact hq
  · rw [shadowOf_publish_take mem hk, htake, List.take_succ_eq_append_getElem hlen,
      List.getD_eq_getElem?_getD, List.getElem?_eq_getElem hlen]
    rfl

/-- **A store.**  It goes to a region the thread has touched, which is marked. -/
theorem SyncInv.store {x : ℕ} (b : UInt8) (hidle : (threads i).pc = .idle) (hx : W.Holds x 1)
    (htouched : addrToRegion bitmapClick x ∈ (threads i).touched) :
    SyncInv W (write mem x [b]) epoch base (Function.update threads i (threads i)) := by
  refine h.step (fun q _ => Or.inl (bitmap_store mem hx b q))
    (fun q hq hm => contentOf_store_of_ne mem b hq ?_) (fun q hq _ => shadowOf_store mem hx b hq)
    (fun _ => Or.inl) (fun _ => Or.inl) (by rw [hidle]; trivial) (h.touchedOk i)
  rintro rfl
  exact hm ((bitmap_store mem hx b _).trans (h.touchedOk i _ htouched).2)

/-- The hook returns, for a region that is marked. -/
theorem SyncInv.leave {a : ℕ} (ha : W.Holds a 1)
    (hm : Marked mem epoch (addrToRegion bitmapClick a))
    (hdone : ∀ r, (threads i).pc.Publishing r → shadowOf mem r = contentOf base r) :
    SyncInv W mem epoch base (Function.update threads i ((threads i).leave a)) := by
  refine h.quiet hdone (fun _ => id) trivial fun r hr => ?_
  rcases List.mem_cons.mp hr with rfl | hr'
  · exact ⟨W.region_of_holds ha, hm⟩
  · exact h.touchedOk i r hr'

/-- The hook goes on, short of the compare-and-swap. -/
theorem SyncInv.goOn {p : Pc} (hbefore : ∀ r, ¬ (threads i).pc.Publishing r)
    (hafter : ∀ r, ¬ p.Publishing r) (hok : PcOk W mem epoch base p) :
    SyncInv W mem epoch base (Function.update threads i { threads i with pc := p }) :=
  h.quiet (fun r hr => (hbefore r hr).elim) hafter hok (h.touchedOk i)

end Thread

/-- **Inside the hook.**  Each move keeps the invariant. -/
theorem SyncInv.hookMove {st st' : EpochState} (h : SyncInv W st.mem st.epoch base threads)
    (hmove : hookMove st (threads i) = some (st', t)) :
    SyncInv W st'.mem st'.epoch base (Function.update threads i t) := by
  have hok := h.pcOk i
  have hleave := fun a => h.leave (i := i) (a := a)
  have hgo := fun p => h.goOn (i := i) (p := p)
  rw [EpochThreads.hookMove] at hmove
  cases hpc : (threads i).pc with
  | idle => simp [hpc] at hmove
  | check a =>
    rw [hpc] at hok hleave hgo
    simp only [hpc] at hmove
    split_ifs at hmove with hbyte <;> cases hmove
    · exact hgo _ (fun _ => id) (fun _ => id) hok
    · refine hleave a hok ?_ fun _ => False.elim
      rw [Marked, addrToBitmap_region]
      exact (not_not.mp hbyte).symm
  | load a =>
    rw [hpc] at hok hleave hgo
    simp only [hpc] at hmove
    split_ifs at hmove with hbyte <;> cases hmove
    · refine hgo _ (fun _ => id) (fun _ => id)
        ⟨hok, hbyte, Nat.zero_le _, fun _ => ⟨by rw [addrToBitmap_region], ?_⟩⟩
      rw [List.length_nil, List.take_zero]
    · refine hleave a hok ?_ fun _ => False.elim
      rw [Marked, addrToBitmap_region]
      exact not_not.mp hbyte
  | copy a old savedBytes =>
    rw [hpc] at hok hleave hgo
    obtain ⟨ha, hold, hlen, hbuf⟩ := hok
    simp only [hpc] at hmove
    split_ifs at hmove with hshort hcas <;> cases hmove
    · refine hgo _ (fun _ => id) (fun _ => id) ⟨ha, hold, ?_, fun hnot => ?_⟩
      · rw [List.length_append, List.length_singleton]
        exact hshort
      · -- the region is unmarked, so that the byte read is the one of the checkpoint
        obtain ⟨hsame, hbuf⟩ := hbuf hnot
        refine ⟨hsame, ?_⟩
        have hclean := congrArg (·.getD savedBytes.length 0)
          (h.clean _ (W.region_of_holds ha) hnot)
        have hnext : savedBytes.length + 1 ≤ bitmapClick := hshort
        simp only [contentOf, read_getD _ _ hshort] at hclean
        rw [contentOf, take_read _ _ hlen] at hbuf
        rw [List.length_append, List.length_singleton, contentOf, take_read _ _ hnext, read_add,
          ← hbuf, hclean]
        rfl
    · exact h.win hpc hshort hcas
    · refine hleave a ha (not_not.mp fun hnot => hcas ?_) fun _ => False.elim
      rw [← addrToBitmap_region]
      exact (hbuf hnot).1
  | publish a savedBytes done =>
    rw [hpc] at hok hleave
    obtain ⟨ha, hm, hbuf, hle, htake⟩ := hok
    simp only [hpc] at hmove
    split_ifs at hmove with hmore <;> cases hmove
    · exact h.publish hpc hmore
    · -- all of the buffer has been written
      refine hleave a ha hm fun r hr => ?_
      have hfull : done = bitmapClick := by omega
      have hr' : addrToRegion bitmapClick a = r := hr
      rwa [hfull, hbuf, List.take_of_length_le (by rw [shadowOf, read_length]),
        List.take_of_length_le (by rw [contentOf, read_length]), hr'] at htake

/-- **A move of a thread** keeps the invariant. -/
theorem SyncInv.threadMove {st st' : EpochState} (h : SyncInv W st.mem st.epoch base threads)
    {m : Move} (hmove : threadMove W st (threads i) m = some (st', t)) :
    SyncInv W st'.mem st'.epoch base (Function.update threads i t) := by
  cases m with
  | hook a =>
    simp only [EpochThreads.threadMove, Option.ite_none_right_eq_some, Option.some.injEq,
      Prod.mk.injEq] at hmove
    obtain ⟨⟨hidle, ha⟩, rfl, rfl⟩ := hmove
    exact h.goOn (by rw [hidle]; exact fun _ => id) (fun _ => id) ha
  | go => exact h.hookMove hmove
  | store x b =>
    simp only [EpochThreads.threadMove, Option.ite_none_right_eq_some, Option.some.injEq,
      Prod.mk.injEq] at hmove
    obtain ⟨⟨hidle, hx, htouched⟩, rfl, rfl⟩ := hmove
    exact h.store b hidle hx htouched

end Steps

/-! ### Runs -/

/-- No thread touches `first_time`. -/
theorem threadMove_firstTime {W : Window} {st st' : EpochState} {t t' : Thread} {m : Move}
    (h : threadMove W st t m = some (st', t')) : st'.firstTime = st.firstTime := by
  cases m with
  | go =>
    simp only [threadMove, hookMove] at h
    cases hpc : t.pc <;> simp only [hpc, reduceCtorEq] at h <;> split_ifs at h <;> cases h <;> rfl
  | _ =>
    simp only [threadMove, Option.ite_none_right_eq_some, Option.some.injEq, Prod.mk.injEq] at h
    rw [← h.2.1]

section Runs

variable {W : Window} {n : ℕ}

/-- What a run keeps once a checkpoint has been taken. -/
def RunInv (W : Window) (s : SyncState n) : Prop :=
  s.st.firstTime = false → SyncInv W s.st.mem s.st.epoch s.base s.threads

/-- **Step.** Every event keeps the invariant. -/
theorem syncStep_inv {s s' : SyncState n} {e : Event n} (h : RunInv W s)
    (hstep : syncStep W s e = some s') : RunInv W s' := by
  cases e with
  | thread i m =>
    simp only [syncStep, Option.map_eq_some_iff] at hstep
    obtain ⟨⟨st', t⟩, hmove, rfl⟩ := hstep
    intro hfirst
    exact (h ((threadMove_firstTime hmove).symm.trans hfirst)).threadMove hmove
  | topOfTheLoop =>
    simp only [syncStep, Option.ite_none_right_eq_some] at hstep
    obtain ⟨hidle, hstep⟩ := hstep
    by_cases hskip : ctxSkipsTol s.st.ctx
    · rw [if_pos hskip, Option.some.injEq] at hstep
      subst hstep
      obtain ⟨hmem, hepoch, htime⟩ := topOfTheLoop_of_skip s.st hskip
      intro hfirst
      simpa only [hmem, hepoch] using h (htime.symm.trans hfirst)
    · rw [if_neg hskip, Option.some.injEq] at hstep
      subst hstep
      intro _
      -- the threads start the epoch outside the hooks, with nothing touched
      have hnew : EpochInv W (topOfTheLoop s.st) s.st.mem fun _ => False :=
        EpochInv.topOfTheLoop s.st (fun hf => (h hf).stale) hskip fun _ => id
      refine ⟨hnew.stale, fun r hr _ => hnew.saves.clean r hr id, fun r hr hm => ?_,
        fun _ _ _ hp => hp.elim, fun _ => trivial, fun _ r hr => absurd hr List.not_mem_nil⟩
      exact ((hnew.mark r hr).mp hm).elim

/-- **Synchronised checkpoints are exact.**  In every state that any interleaving of the threads
    reaches after the first checkpoint, a region whose byte is not at the epoch is as it was at the
    checkpoint; one whose byte is at the epoch has that in its shadow or, while a thread is still
    writing the shadow, in the buffer of that thread, which is the only one to do so; and every
    region that a hook call has returned for has its byte at the epoch. -/
theorem syncRun_exact (W : Window) (m : Mem) (ctx : Ctx) (es : List (Event n)) (s : SyncState n)
    (hrun : es.foldlM (syncStep W) (syncInit n m ctx) = some s) (hfirst : s.st.firstTime = false)
    (r : ℕ) (hr : W.Region r) :
    (s.st.mem (addrToBitmap r) ≠ s.st.epoch → contentOf s.st.mem r = contentOf s.base r) ∧
      (s.st.mem (addrToBitmap r) = s.st.epoch →
        (∃! i, (s.threads i).pc.Publishing r) ∨ shadowOf s.st.mem r = contentOf s.base r) ∧
      (∀ i a savedBytes done, (s.threads i).pc = .publish a savedBytes done →
        addrToRegion bitmapClick a = r → savedBytes = contentOf s.base r) ∧
      ∀ i, r ∈ (s.threads i).touched → s.st.mem (addrToBitmap r) = s.st.epoch := by
  have hinit : RunInv W (syncInit n m ctx) := fun h => absurd h (by simp [syncInit])
  have hinv : SyncInv W s.st.mem s.st.epoch s.base s.threads :=
    Runs.invariant_of_run (P := fun _ _ => True) (I := RunInv W)
      (fun s e s' h _ hs => syncStep_inv h hs) hinit (Runs.meets_of_forall fun _ _ _ => trivial)
      hrun hfirst
  refine ⟨hinv.clean r hr, fun hm => ?_, fun i a savedBytes done hpc ha => ?_, fun i hi => ?_⟩
  · exact (hinv.saved r hr hm).imp_left (Exists.imp fun i hi =>
      ⟨hi, fun j hj => hinv.single j i r hj hi⟩)
  · have hok := hinv.pcOk i
    rw [hpc] at hok
    exact ha ▸ hok.2.2.1
  · exact (hinv.touchedOk i r hi).2

/-- Two threads race for one region.  The first wins the compare-and-swap; the second loses it
    and stores before the first has written a byte of the shadow. -/
def raceEvents (i j : Fin 2) : List (Event 2) :=
  [.topOfTheLoop, .thread i (.hook 0x3000000008), .thread j (.hook 0x3000000010),
    .thread i .go, .thread j .go, .thread i .go, .thread j .go] ++
    List.replicate 128 (.thread i .go) ++ List.replicate 128 (.thread j .go) ++
    [.thread i .go, .thread j .go, .thread j (.store 0x3000000010 5)]

/-- The state after `raceEvents`. -/
def raceState : SyncState 2 :=
  ((raceEvents ⟨0, Nat.two_pos⟩ ⟨1, Nat.one_lt_two⟩).foldlM (syncStep sampleWindow)
    (syncInit 2 (fun _ => 7) ⟨1, 0, 0, 0⟩)).get (by decide +kernel)

/-- The first thread has all of the shadow to write, and the second is outside the hooks. -/
theorem raceState_facts : raceState.st.firstTime = false ∧
    (raceState.threads 0).pc = .publish 0x3000000008 (List.replicate 128 7) 0 ∧
    raceState.threads 1 = ⟨.idle, [0x3000000000]⟩ := by
  decide +kernel

/-- In the race the first thread's buffer holds what the checkpoint needs. -/
theorem syncRun_exact_race :
    (raceState.threads 0).pc = .publish 0x3000000008 (List.replicate 128 7) 0 ∧
      List.replicate 128 7 = contentOf raceState.base 0x3000000000 ∧
      raceState.st.mem (addrToBitmap 0x3000000000) = raceState.st.epoch := by
  obtain ⟨hfirst, hpc, hsecond⟩ := raceState_facts
  have hexact := syncRun_exact sampleWindow (fun _ => 7) ⟨1, 0, 0, 0⟩ _ raceState
    (Option.some_get _).symm hfirst 0x3000000000 ⟨by decide, by decide⟩
  exact ⟨hpc, hexact.2.2.1 0 _ _ _ hpc (by decide), hexact.2.2.2 1 (by simp [hsecond])⟩

end Runs

end Firestarter.Bitmap.EpochThreads
