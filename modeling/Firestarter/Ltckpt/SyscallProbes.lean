import Firestarter.Ltckpt.Mprotect

namespace Firestarter.Mprotect

open FlatMem

/-!
# Probes before system calls (`mechanisms/mprotect/mprotect_overrides.c`)

A system call that writes to a read-only page fails with `EFAULT`; the kernel raises no signal
there, so the handler of the mechanism does not run.  The wrappers of some functions therefore
write to their output arguments themselves before they make the call.

* `Syscall.body` — the bytes that the wrapper of a function writes back, in order;
* `Syscall.data`, `Syscall.results` — what the kernel may write;
* `exists_mem_checkBuff_iff` — **the pages that `LTCKPT_CHECK_BUFF` meets**, by what its loop
  does;
* `shields_iff` — the calls whose wrapper meets every page that the kernel may write.
-/

/-! ### Arguments -/

/-- A pointer and a size; the buffer lies in the user half of the address space. -/
structure Buffer where
  base : ℕ
  len : ℕ
  user : base + len ≤ 0x800000000000

/-- `struct msghdr` with its address; `msg_iov` and `msg_iovlen` are the array they describe. -/
structure Msghdr where
  addr : ℕ
  nonnull : addr ≠ 0
  msgName : ℕ
  msgNamelen : ℕ
  msgIov : List Buffer
  msgControl : Buffer

/-- Calls of the wrapped functions, with the arguments that the wrapper or the kernel's writes
    depend on; `len` is the value that `addrlen` points to. -/
inductive Syscall
  | epollWait (events maxevents : ℕ)
  | poll (fds nfds : ℕ)
  | select (nfds readfds writefds exceptfds timeout : ℕ)
  | read (buf : Buffer)
  | accept (addr addrlen len : ℕ)
  | accept4 (addr addrlen len : ℕ)
  | recv (buf : Buffer)
  | recvfrom (buf : Buffer) (srcAddr addrlen len : ℕ)
  | recvmsg (msg : Option Msghdr)
  | semop (sops : ℕ)
  | stat (buf : ℕ)
  | xstat (buf : ℕ)
  | fstat (buf : ℕ)
  | fxstat (buf : ℕ)
  | lstat (buf : ℕ)
  | lxstat (buf : ℕ)

/-! ### The wrappers -/

/-- `LTCKPT_CHECK_WRITE`: the byte goes through `ltckpt_check_write_sink`, which stands at
    `sink`; `none` when the handler aborts. -/
def ltckptCheckWrite (V : List Vma) (sink : ℕ) (s : MprState) (B : ℕ) : Option MprState :=
  if B = 0 then some s
  else do
    let s ← mprStep V s (writeByte sink (s.mem B))
    mprStep V s (writeByte B (s.mem sink))

/-- The loop of `LTCKPT_CHECK_BUFF` from `__i = i`: an `int`, which wraps, and which is compared
    with the size as a `size_t`. -/
def checkBuffLoop (B S : ℕ) : ℕ → ℤ → List ℕ
  | 0, _ => []
  | fuel + 1, i =>
    if (i % 0x10000000000000000).toNat < S then
      (B + i).toNat :: checkBuffLoop B S fuel (Int.bmod (i + pageSize) 0x100000000)
    else []

/-- `LTCKPT_CHECK_BUFF`: the bytes it checks.  The loop ends before its fuel does
    (`mem_checkBuffLoop`). -/
def ltckptCheckBuff (B : Buffer) : List ℕ :=
  if B.base ≠ 0 ∧ 0 < B.len then
    checkBuffLoop B.base B.len 0x80001 0 ++ [B.base + B.len - 1]
  else []

/-- The body of a wrapper: the pointers that go to `LTCKPT_CHECK_WRITE`, in order.  `stat`,
    `fstat` and `lstat` end in calls of libc's `__xstat`, `__fxstat` and `__lxstat`. -/
def Syscall.body : Syscall → List ℕ
  | epollWait events _ => [events]
  | poll fds _ => [fds]
  | select _ readfds writefds exceptfds _ => [readfds, writefds, exceptfds]
  | read buf => ltckptCheckBuff buf
  | accept addr addrlen _ => [addr, addrlen]
  | accept4 addr addrlen _ => [addr, addrlen]
  | recv buf => ltckptCheckBuff buf
  | recvfrom buf srcAddr addrlen _ => ltckptCheckBuff buf ++ [srcAddr, addrlen]
  | recvmsg none => []
  | recvmsg (some msg) =>
    ltckptCheckBuff msg.msgControl ++ msg.msgIov.flatMap ltckptCheckBuff ++ [msg.addr]
  | semop sops => [sops]
  | stat buf => [buf]
  | xstat buf => [buf]
  | fstat buf => [buf]
  | fxstat buf => [buf]
  | lstat buf => [buf]
  | lxstat buf => [buf]

/-- The process when a wrapper has run its body and is about to make the call. -/
def Syscall.wrapper (c : Syscall) (V : List Vma) (sink : ℕ) (s : MprState) : Option MprState :=
  c.body.foldlM (ltckptCheckWrite V sink) s

/-! ### The kernel -/

/-- `MAX_RW_COUNT`: what one call transfers at most. -/
def maxRwCount : ℕ := 0x7ffff000

/-- Where the kernel may write `len` bytes through a pointer. -/
def out (addr len : ℕ) : List (ℕ × ℕ) := if addr = 0 then [] else [(addr, len)]

/-- Where the kernel may write `left` bytes of data that it scatters over buffers. -/
def scatter : ℕ → List Buffer → List (ℕ × ℕ)
  | _, [] => []
  | left, v :: vs => out v.base (min v.len left) ++ scatter (left - v.len) vs

/-- A socket address and its length; the kernel's addresses have at most 128 bytes
    (`struct sockaddr_storage`). -/
def outName (addr len lenAddr : ℕ) : List (ℕ × ℕ) :=
  if addr = 0 then [] else [(addr, min len 128), (lenAddr, 4)]

/-- The data that a call transfers. -/
def Syscall.data : Syscall → List (ℕ × ℕ)
  | read buf => scatter maxRwCount [buf]
  | recv buf => scatter maxRwCount [buf]
  | recvfrom buf _ _ _ => scatter maxRwCount [buf]
  | recvmsg (some msg) => scatter maxRwCount msg.msgIov
  | _ => []

/-- What the kernel may write besides, as ranges of bytes: 12 bytes for an `epoll_event`, the
    field `revents` of a `pollfd`, whole words of an `fd_set`, a `timeval`, a `struct stat`, the
    fields `msg_namelen`, `msg_controllen` and `msg_flags` of a `msghdr`. -/
def Syscall.results : Syscall → List (ℕ × ℕ)
  | epollWait events maxevents => out events (12 * maxevents)
  | poll fds nfds => if fds = 0 then [] else (List.range nfds).map fun i => (fds + 8 * i + 6, 2)
  | select nfds readfds writefds exceptfds timeout =>
    out readfds (8 * ((nfds + 63) / 64)) ++ out writefds (8 * ((nfds + 63) / 64)) ++
      out exceptfds (8 * ((nfds + 63) / 64)) ++ out timeout 16
  | accept addr addrlen len => outName addr len addrlen
  | accept4 addr addrlen len => outName addr len addrlen
  | recvfrom _ srcAddr addrlen len => outName srcAddr len addrlen
  | recvmsg (some msg) =>
    outName msg.msgName msg.msgNamelen (msg.addr + 8) ++
      out msg.msgControl.base msg.msgControl.len ++ [(msg.addr + 40, 12)]
  | stat buf | xstat buf | fstat buf | fxstat buf | lstat buf | lxstat buf => out buf 144
  | read _ | recv _ | recvmsg none | semop _ => []

/-- A byte of one of the ranges. -/
def Touches (R : List (ℕ × ℕ)) (b : ℕ) : Prop := ∃ r ∈ R, r.1 ≤ b ∧ b < r.1 + r.2

/-- What a wrapper is for: when the call is made, the wrapper has written to every page that the
    kernel may write, these pages are writable, and no byte but the sink has changed. -/
structure Shields (c : Syscall) (sink : ℕ) (s s' : MprState) : Prop where
  probed : ∃ ps, s'.written = ps ++ s.written ∧
    ∀ b, Touches (c.data ++ c.results) b → pageOf b ∈ ps
  writable : ∀ b, Touches (c.data ++ c.results) b → s'.writable (pageOf b) = true
  unchanged : ∀ a, a ≠ sink → s'.mem a = s.mem a

/-! ### One check and a run of checks -/

section Checks

variable {V : List Vma} {sink : ℕ} {s s' : MprState}

/-- A one-byte write, whether or not it faults. -/
theorem mprStep_writeByte {a : ℕ} {v : UInt8} (h : mprStep V s (writeByte a v) = some s') :
    s'.mem = write s.mem a [v] ∧ s'.written = pageOf a :: s.written ∧
      s'.writable = Function.update s.writable (pageOf a) true := by
  simp only [mprStep, writeByte] at h
  split at h
  next hw =>
    obtain rfl := Option.some.inj h
    exact ⟨rfl, rfl, by rw [← hw]; exact (Function.update_eq_self _ _).symm⟩
  next hw =>
    rw [Option.map_eq_some_iff] at h
    obtain ⟨t, ht, rfl⟩ := h
    simp only [ltckptSighandler, ltckptPageListAdd, Option.map_eq_some_iff] at ht
    obtain ⟨u, hu, rfl⟩ := ht
    split at hu
    next => obtain rfl := Option.some.inj hu; exact ⟨rfl, rfl, rfl⟩
    next => exact absurd hu (by simp)

/-- What a list of checks leaves: the pages of the checked bytes, and of the sink, have been
    written and are writable, and no byte but the sink has changed. -/
structure Probes (sink : ℕ) (l : List ℕ) (s s' : MprState) : Prop where
  pages : ∃ ps, s'.written = ps ++ s.written ∧
    ∀ p, p ∈ ps ↔ ∃ a ∈ l, a ≠ 0 ∧ (pageOf a = p ∨ pageOf sink = p)
  opens : ∀ a ∈ l, a ≠ 0 → s'.writable (pageOf a) = true ∧ s'.writable (pageOf sink) = true
  keeps : ∀ p, s.writable p = true → s'.writable p = true
  mem : ∀ a, a ≠ sink → s'.mem a = s.mem a

/-- Writing one byte. -/
theorem write_singleton (m : Mem) (a : ℕ) (v : UInt8) (x : ℕ) :
    write m a [v] x = if x = a then v else m x := by
  split
  next h => subst h; rw [write_of_inside m x [v] le_rfl (Nat.lt_succ_self x), Nat.sub_self]; rfl
  next h => exact write_of_outside m a [v] (by simp only [List.length_singleton]; omega)

/-- **One check.** -/
theorem ltckptCheckWrite_probes {B : ℕ} (h : ltckptCheckWrite V sink s B = some s') :
    Probes sink [B] s s' := by
  unfold ltckptCheckWrite at h
  split at h
  next h0 =>
    obtain rfl := Option.some.inj h
    refine ⟨⟨[], rfl, fun p => ?_⟩, fun a ha hne => ?_, fun _ => id, fun _ _ => rfl⟩
    · simp [h0]
    · exact absurd ((List.mem_singleton.mp ha).trans h0) hne
  next h0 =>
    obtain ⟨t, ht, h⟩ := Option.bind_eq_some_iff.mp h
    obtain ⟨hm, hwr, hw⟩ := mprStep_writeByte ht
    obtain ⟨hm', hwr', hw'⟩ := mprStep_writeByte h
    refine ⟨⟨[pageOf B, pageOf sink], by rw [hwr', hwr]; rfl, fun p => ?_⟩,
      fun a ha _ => ?_, fun p hp => ?_, fun a ha => ?_⟩
    · simp [h0, eq_comm]
    · obtain rfl := List.mem_singleton.mp ha
      rw [hw', hw]
      refine ⟨Function.update_self _ _ _, ?_⟩
      by_cases hps : pageOf sink = pageOf a
      · rw [hps, Function.update_self]
      · rw [Function.update_of_ne hps, Function.update_self]
    · rw [hw', hw]
      simp only [Function.update_apply]
      split
      · rfl
      · split
        · rfl
        · exact hp
    · -- the sink holds the byte at `B` when it is written back
      rw [hm', hm, write_singleton, write_singleton, write_singleton, if_pos rfl, if_neg ha]
      split
      next hB => rw [hB]
      next => rfl

/-- **A run of checks.** -/
theorem foldlM_checkWrite_probes : ∀ {l : List ℕ} {s s' : MprState},
    l.foldlM (ltckptCheckWrite V sink) s = some s' → Probes sink l s s'
  | [], s, s', h => by
    obtain rfl := Option.some.inj h
    exact ⟨⟨[], rfl, by simp⟩, by simp, fun _ => id, fun _ _ => rfl⟩
  | B :: l, s, s', h => by
    rw [List.foldlM_cons] at h
    obtain ⟨t, ht, h⟩ := Option.bind_eq_some_iff.mp h
    have hB := ltckptCheckWrite_probes ht
    have hl := foldlM_checkWrite_probes h
    obtain ⟨ps, hps, hmem⟩ := hB.pages
    obtain ⟨qs, hqs, hmem'⟩ := hl.pages
    refine ⟨⟨qs ++ ps, by rw [hqs, hps, List.append_assoc], fun p => ?_⟩, fun a ha hne => ?_,
      fun p hp => hl.keeps p (hB.keeps p hp), fun a ha => (hl.mem a ha).trans (hB.mem a ha)⟩
    · rw [List.mem_append, hmem, hmem', List.exists_mem_cons_iff, List.exists_mem_cons_iff]
      simp only [List.not_mem_nil, false_and, exists_false, or_false]
      exact or_comm
    · rcases List.mem_cons.mp ha with rfl | ha
      · obtain ⟨h1, h2⟩ := hB.opens a (List.mem_singleton_self a) hne
        exact ⟨hl.keeps _ h1, hl.keeps _ h2⟩
      · exact hl.opens a ha hne

/-- Where every page is writable nothing faults, and the wrapper makes its call. -/
theorem exists_foldlM_checkWrite : ∀ (l : List ℕ) {s : MprState}, (∀ p, s.writable p = true) →
    ∃ s', l.foldlM (ltckptCheckWrite V sink) s = some s'
  | [], s, _ => ⟨s, rfl⟩
  | B :: l, s, h => by
    have hB : ∃ t, ltckptCheckWrite V sink s B = some t := by
      unfold ltckptCheckWrite
      split
      next => exact ⟨s, rfl⟩
      next => simp [mprStep, writeByte, rawWrite, h]
    obtain ⟨t, ht⟩ := hB
    have ht' := (ltckptCheckWrite_probes ht).keeps
    obtain ⟨s', hs'⟩ := exists_foldlM_checkWrite l fun p => ht' p (h p)
    exact ⟨s', by rw [List.foldlM_cons, ht]; exact hs'⟩

end Checks

/-! ### The pages of a buffer -/

/-- The value of `__i` after `k` rounds. -/
def roundIndex (k : ℕ) : ℤ := if k < 0x80000 then pageSize * k else -0x80000000

/-- The bytes that the loop visits from round `k` on.  `__i` is negative after `0x80000` rounds,
    which as a `size_t` is above every size. -/
theorem mem_checkBuffLoop {B S : ℕ} (hS : S ≤ 0x800000000000) :
    ∀ {fuel k : ℕ}, k ≤ 0x80000 → 0x80000 < fuel + k → ∀ a,
      (a ∈ checkBuffLoop B S fuel (roundIndex k) ↔
        ∃ j, k ≤ j ∧ j < 0x80000 ∧ pageSize * j < S ∧ a = B + pageSize * j)
  | 0, k, hk, hf, a => by omega
  | fuel + 1, k, hk, hf, a => by
    rw [checkBuffLoop]
    unfold roundIndex
    by_cases hlt : k < 0x80000
    · have hi : ((pageSize * k : ℤ) % 0x10000000000000000).toNat = pageSize * k := by
        simp only [pageSize]; omega
      have ha : (B + (pageSize * k : ℤ)).toNat = B + pageSize * k := by omega
      have hnext : Int.bmod (pageSize * k + pageSize : ℤ) 0x100000000 = roundIndex (k + 1) := by
        simp only [pageSize, roundIndex, Int.bmod_def]; split <;> split <;> omega
      rw [if_pos hlt, hi, ha, hnext]
      split
      next hS' =>
        rw [List.mem_cons, mem_checkBuffLoop hS (by omega) (by omega)]
        constructor
        · rintro (rfl | ⟨j, h1, h2, h3, rfl⟩)
          · exact ⟨k, le_rfl, hlt, hS', rfl⟩
          · exact ⟨j, by omega, h2, h3, rfl⟩
        · rintro ⟨j, h1, h2, h3, rfl⟩
          rcases Nat.eq_or_lt_of_le h1 with rfl | h1
          · exact .inl rfl
          · exact .inr ⟨j, h1, h2, h3, rfl⟩
      next hS' =>
        refine ⟨fun h => absurd h List.not_mem_nil, ?_⟩
        rintro ⟨j, h1, h2, h3, rfl⟩
        exact absurd (lt_of_le_of_lt (Nat.mul_le_mul_left pageSize h1) h3) hS'
    · have hi : ¬ ((-0x80000000 : ℤ) % 0x10000000000000000).toNat < S := by omega
      rw [if_neg hlt, if_neg hi]
      refine ⟨fun h => absurd h List.not_mem_nil, ?_⟩
      rintro ⟨j, h1, h2, -, -⟩
      omega

/-- The bytes of a buffer that decide which pages are checked: those up to the last round of the
    loop, and the last one. -/
def Buffer.Checked (B : Buffer) (b : ℕ) : Prop :=
  B.base ≠ 0 ∧ B.base ≤ b ∧ b < B.base + B.len ∧
    (b ≤ B.base + maxRwCount ∨ b + 1 = B.base + B.len)

/-- Pages do not come back. -/
theorem pageOf_eq_of_between {a b c : ℕ} (hab : a ≤ b) (hbc : b ≤ c) (h : pageOf a = pageOf c) :
    pageOf b = pageOf a := by
  simp only [pageOf, pageSize] at *
  omega

/-- A byte between two rounds of the loop is on the page of one of them. -/
theorem pageOf_round {B b j : ℕ} (hlo : B + pageSize * j ≤ b) (hhi : b < B + pageSize * (j + 1)) :
    pageOf b = pageOf (B + pageSize * j) ∨ pageOf b = pageOf (B + pageSize * (j + 1)) := by
  simp only [pageOf, pageSize] at *
  omega

/-- The addresses that `LTCKPT_CHECK_BUFF` checks: one for each round, and the last one. -/
theorem mem_ltckptCheckBuff {B : Buffer} {a : ℕ} :
    a ∈ ltckptCheckBuff B ↔ (B.base ≠ 0 ∧ 0 < B.len) ∧
      ((∃ j, j < 0x80000 ∧ pageSize * j < B.len ∧ a = B.base + pageSize * j) ∨
        a = B.base + B.len - 1) := by
  have hlen : B.len ≤ 0x800000000000 := le_trans (Nat.le_add_left _ _) B.user
  have hloop : a ∈ checkBuffLoop B.base B.len 0x80001 0 ↔ _ :=
    mem_checkBuffLoop hlen (Nat.zero_le _) (by omega) a
  unfold ltckptCheckBuff
  split
  next hb =>
    rw [List.mem_append, List.mem_singleton, hloop]
    simp only [Nat.zero_le, true_and, hb, ne_eq, not_false_eq_true, and_self]
  next hb =>
    exact ⟨fun ha => absurd ha List.not_mem_nil, fun ha => absurd ha.1 hb⟩

/-- **The pages that `LTCKPT_CHECK_BUFF` meets** are those of the buffer, up to the last round of
    its loop, and the last one. -/
theorem exists_mem_checkBuff_iff (B : Buffer) (p : ℕ) :
    (∃ a ∈ ltckptCheckBuff B, a ≠ 0 ∧ pageOf a = p) ↔ ∃ b, B.Checked b ∧ pageOf b = p := by
  constructor
  · rintro ⟨a, ha, hne, rfl⟩
    obtain ⟨hb, hround | rfl⟩ := mem_ltckptCheckBuff.mp ha
    · obtain ⟨j, hj, hlt, rfl⟩ := hround
      refine ⟨_, ⟨hb.1, ?_⟩, rfl⟩
      simp only [pageSize, maxRwCount] at *
      omega
    · exact ⟨_, ⟨hb.1, by omega⟩, rfl⟩
  · rintro ⟨b, ⟨h0, hlo, hhi, hb⟩, rfl⟩
    have hguard : B.base ≠ 0 ∧ 0 < B.len := ⟨h0, by omega⟩
    have hlast : pageOf (B.base + B.len - 1) = pageOf b →
        ∃ a ∈ ltckptCheckBuff B, a ≠ 0 ∧ pageOf a = pageOf b :=
      fun hp => ⟨_, mem_ltckptCheckBuff.mpr ⟨hguard, .inr rfl⟩, by omega, hp⟩
    rcases hb with hb | hb
    · have hround : ∀ i, i < 0x80000 → pageSize * i < B.len →
          pageOf b = pageOf (B.base + pageSize * i) →
          ∃ a ∈ ltckptCheckBuff B, a ≠ 0 ∧ pageOf a = pageOf b := fun i h1 h2 hp =>
        ⟨_, mem_ltckptCheckBuff.mpr ⟨hguard, .inl ⟨i, h1, h2, rfl⟩⟩, by omega, hp.symm⟩
      -- round `j` is the last one at or below `b`
      obtain ⟨j, hj, hj'⟩ : ∃ j, B.base + pageSize * j ≤ b ∧ b < B.base + pageSize * (j + 1) :=
        ⟨(b - B.base) / pageSize, by simp only [pageSize]; omega, by simp only [pageSize]; omega⟩
      by_cases hp : pageOf b = pageOf (B.base + pageSize * j)
      · have hjmax : j < 0x80000 := by simp only [pageSize, maxRwCount] at *; omega
        exact hround j hjmax (by omega) hp
      · have hnext := (pageOf_round hj hj').resolve_left hp
        have hjmax : j + 1 < 0x80000 := by
          have hne : b ≠ B.base + pageSize * j := fun h => hp (congrArg pageOf h)
          simp only [pageSize, maxRwCount] at *
          omega
        by_cases hn : pageSize * (j + 1) < B.len
        · exact hround (j + 1) hjmax hn hnext
        · exact hlast (pageOf_eq_of_between (by omega) (by omega) hnext)
    · refine hlast ?_
      rw [← hb, Nat.add_sub_cancel]

/-! ### The calls -/

/-- The pointers that a wrapper hands to `LTCKPT_CHECK_WRITE`. -/
def Syscall.structures : Syscall → List ℕ
  | epollWait events _ => [events]
  | poll fds _ => [fds]
  | select _ readfds writefds exceptfds _ => [readfds, writefds, exceptfds]
  | accept addr addrlen _ | accept4 addr addrlen _ | recvfrom _ addr addrlen _ => [addr, addrlen]
  | recvmsg (some msg) => [msg.addr]
  | semop sops => [sops]
  | stat buf | xstat buf | fstat buf | fxstat buf | lstat buf | lxstat buf => [buf]
  | read _ | recv _ | recvmsg none => []

/-- The buffers that a wrapper hands to `LTCKPT_CHECK_BUFF`. -/
def Syscall.buffers : Syscall → List Buffer
  | read buf | recv buf | recvfrom buf _ _ _ => [buf]
  | recvmsg (some msg) => msg.msgControl :: msg.msgIov
  | _ => []

/-- The bytes of a call's arguments that decide which pages are checked. -/
def Syscall.Checked (c : Syscall) (b : ℕ) : Prop :=
  (b ∈ c.structures ∧ b ≠ 0) ∨ ∃ B ∈ c.buffers, B.Checked b

theorem Syscall.mem_body (c : Syscall) (a : ℕ) :
    a ∈ c.body ↔ a ∈ c.structures ∨ ∃ B ∈ c.buffers, a ∈ ltckptCheckBuff B := by
  cases c with
  | recvmsg msg =>
    cases msg with
    | none => simp [body, structures, buffers]
    | some msg =>
      simp only [body, structures, buffers, List.mem_append, List.mem_flatMap,
        List.exists_mem_cons_iff]
      exact or_comm
  | recvfrom =>
    simp only [body, structures, buffers, List.mem_append, List.mem_singleton, exists_eq_left]
    exact or_comm
  | _ => simp [body, structures, buffers]

/-- The pages of the bytes that a wrapper checks. -/
theorem Syscall.exists_mem_body_iff (c : Syscall) (p : ℕ) :
    (∃ a ∈ c.body, a ≠ 0 ∧ pageOf a = p) ↔ ∃ b, c.Checked b ∧ pageOf b = p := by
  constructor
  · rintro ⟨a, ha, hne, hp⟩
    rcases (c.mem_body a).mp ha with ha | ⟨B, hB, ha⟩
    · exact ⟨a, .inl ⟨ha, hne⟩, hp⟩
    · obtain ⟨b, hb, hp⟩ := (exists_mem_checkBuff_iff B p).mp ⟨a, ha, hne, hp⟩
      exact ⟨b, .inr ⟨B, hB, hb⟩, hp⟩
  · rintro ⟨b, ⟨hb, hne⟩ | ⟨B, hB, hb⟩, hp⟩
    · exact ⟨b, (c.mem_body b).mpr (.inl hb), hne, hp⟩
    · obtain ⟨a, ha, hne, hp⟩ := (exists_mem_checkBuff_iff B p).mpr ⟨b, hb, hp⟩
      exact ⟨a, (c.mem_body a).mpr (.inr ⟨B, hB, ha⟩), hne, hp⟩

/-- Data goes to the checked part of the buffers. -/
theorem checked_of_scatter {b : ℕ} : ∀ {left : ℕ} {vs : List Buffer}, left ≤ maxRwCount →
    Touches (scatter left vs) b → ∃ B ∈ vs, B.Checked b
  | _, [], _, ⟨_, hr, _⟩ => absurd hr List.not_mem_nil
  | left, v :: vs, hleft, ⟨r, hr, hlo, hhi⟩ => by
    rcases List.mem_append.mp hr with hr | hr
    · unfold out at hr
      split at hr
      next => exact absurd hr List.not_mem_nil
      next h0 =>
        obtain rfl := List.mem_singleton.mp hr
        simp only at hlo hhi
        exact ⟨v, List.mem_cons_self, h0, hlo, by omega, .inl (by omega)⟩
    · obtain ⟨B, hB, hb⟩ := checked_of_scatter (by omega) ⟨r, hr, hlo, hhi⟩
      exact ⟨B, List.mem_cons_of_mem _ hB, hb⟩

theorem Syscall.checked_of_data {c : Syscall} {b : ℕ} (h : Touches c.data b) : c.Checked b := by
  cases c with
  | read buf | recv buf | recvfrom buf => exact .inr (checked_of_scatter le_rfl h)
  | recvmsg msg =>
    cases msg with
    | none => obtain ⟨_, hr, -⟩ := h; exact absurd hr List.not_mem_nil
    | some msg =>
      obtain ⟨B, hB, hb⟩ := checked_of_scatter le_rfl h
      exact .inr ⟨B, List.mem_cons_of_mem _ hB, hb⟩
  | _ => obtain ⟨_, hr, -⟩ := h; exact absurd hr List.not_mem_nil

/-- A page that a wrapper writes to: that of a checked byte, or that of the sink. -/
def Syscall.MeetsPage (c : Syscall) (sink p : ℕ) : Prop :=
  ∃ b, c.Checked b ∧ (pageOf b = p ∨ pageOf sink = p)

/-- The pages that a wrapper has written to when it makes its call. -/
theorem Syscall.wrapper_pages {c : Syscall} {V : List Vma} {sink : ℕ} {s s' : MprState}
    (h : c.wrapper V sink s = some s') :
    ∃ ps, s'.written = ps ++ s.written ∧ ∀ p, p ∈ ps ↔ c.MeetsPage sink p := by
  obtain ⟨ps, hps, hmem⟩ := (foldlM_checkWrite_probes h).pages
  refine ⟨ps, hps, fun p => (hmem p).trans ⟨?_, ?_⟩⟩
  · rintro ⟨a, ha, hne, hp⟩
    obtain ⟨b, hb, hpb⟩ := (c.exists_mem_body_iff _).mp ⟨a, ha, hne, rfl⟩
    exact ⟨b, hb, hp.imp_left hpb.trans⟩
  · rintro ⟨b, hb, hp⟩
    obtain ⟨a, ha, hne, hpa⟩ := (c.exists_mem_body_iff _).mpr ⟨b, hb, rfl⟩
    exact ⟨a, ha, hne, hp.imp_left hpa.trans⟩

/-- The pages that a wrapper has written to are writable when it makes its call. -/
theorem Syscall.wrapper_writable {c : Syscall} {V : List Vma} {sink p : ℕ} {s s' : MprState}
    (h : c.wrapper V sink s = some s') (hp : c.MeetsPage sink p) : s'.writable p = true := by
  obtain ⟨b, hb, hp⟩ := hp
  obtain ⟨a, ha, hne, hpa⟩ := (c.exists_mem_body_iff _).mpr ⟨b, hb, rfl⟩
  obtain ⟨hwa, hws⟩ := (foldlM_checkWrite_probes h).opens a ha hne
  rcases hp with rfl | rfl
  · rw [← hpa]; exact hwa
  · exact hws

/-- **What the wrappers shield.**  Data that goes to buffers always meets checked pages.  The
    wrapper of a call does its work exactly if the other things that the kernel may write do not
    go beyond pages with a checked byte (or with the sink): of a structure only the first byte is
    checked, and of the timeout of `select` and the name of `recvmsg` none is. -/
theorem shields_iff (c : Syscall) (sink : ℕ) :
    (∀ V s s', c.wrapper V sink s = some s' → Shields c sink s s') ↔
      ∀ b, Touches c.results b → c.MeetsPage sink (pageOf b) := by
  constructor
  · intro h b hb
    -- a process in which no page is protected makes the call
    let s₀ := mprInit [] true ⟨1, 0, 0, 0⟩ fun _ => 0
    obtain ⟨s', hs'⟩ : ∃ s', c.wrapper [] sink s₀ = some s' :=
      exists_foldlM_checkWrite c.body fun _ => rfl
    obtain ⟨ps, hps, hmem⟩ := Syscall.wrapper_pages hs'
    obtain ⟨ps', hps', hall⟩ := (h _ _ _ hs').probed
    obtain rfl := List.append_cancel_right (hps.symm.trans hps')
    obtain ⟨r, hr, hrb⟩ := hb
    exact (hmem _).mp (hall b ⟨r, List.mem_append_right _ hr, hrb⟩)
  · intro h V s s' hs'
    have hpage : ∀ b, Touches (c.data ++ c.results) b → c.MeetsPage sink (pageOf b) := by
      rintro b ⟨r, hr, hb⟩
      rcases List.mem_append.mp hr with hr | hr
      · exact ⟨b, c.checked_of_data ⟨r, hr, hb⟩, .inl rfl⟩
      · exact h b ⟨r, hr, hb⟩
    obtain ⟨ps, hps, hmem⟩ := Syscall.wrapper_pages hs'
    exact {
      probed := ⟨ps, hps, fun b hb => (hmem _).mpr (hpage b hb)⟩
      writable := fun b hb => Syscall.wrapper_writable hs' (hpage b hb)
      unchanged := (foldlM_checkWrite_probes hs').mem }

/-- A process whose two pages the mechanism protects. -/
def protectedProcess : MprState := mprInit twoPages false ⟨1, 0, 0, 0⟩ fun _ => 0

/-- A `struct stat` across the two pages: only the first one is writable when `stat` is called,
    and the kernel's write to the other one fails. -/
theorem stat_crosses_pages : ∃ s', (Syscall.stat 0x10f80).wrapper twoPages 0x20000
      protectedProcess = some s' ∧ s'.writable 0x11000 = false ∧
      ¬ Shields (.stat 0x10f80) 0x20000 protectedProcess s' := by
  refine ⟨_, rfl, rfl, fun h => ?_⟩
  have htouch : Touches ((Syscall.stat 0x10f80).data ++ (Syscall.stat 0x10f80).results) 0x11000 :=
    ⟨(0x10f80, 144), by decide, by decide, by decide⟩
  have hw := h.writable 0x11000 htouch
  exact absurd hw (by decide)

end Firestarter.Mprotect
