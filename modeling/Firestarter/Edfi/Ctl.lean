import Firestarter.Lib.FlatMem

namespace Firestarter.Edfi

open FlatMem

/-!
# The control protocol (`edfi_ctl_client.c`, `edfi_ctl_server.c`)

A client connects to a stream socket and sends a header, a context and parameters in three
`send` calls; the server reads them with two `recv` calls, runs the command and replies.  A
stream socket keeps no message boundaries: a `recv` call may return any nonempty part of what
was asked for, and nothing at the end of the stream.

* `recv` — one call, for any choice of how much it returns;
* `serveConnection` — the body of the loop of `__edfi_ctl_srv`, up to the call of
  `edfi_ctl_process_request`;
* `executed` — the command that `edfi_process_cmd` then runs;
* `ctl_delivers_iff` — commands of given sizes arrive intact exactly if both `recv` calls
  return all they ask for, and a connection that ends early runs a command unless the part of
  the header that arrived is refused.
-/

/-! ### Commands -/

/-- `enum edfi_ctl_cmd`. -/
inductive EdfiCtlCmd
  | stop | start | test | stat | update
  deriving DecidableEq, Repr

/-- The value of an enumerator. -/
def EdfiCtlCmd.toNat : EdfiCtlCmd → ℕ
  | .stop => 0
  | .start => 1
  | .test => 2
  | .stat => 3
  | .update => 4

/-- The `switch` of `edfi_process_cmd`; any other value takes its `default`, which runs
    nothing. -/
def EdfiCtlCmd.ofNat? : ℕ → Option EdfiCtlCmd
  | 0 => some .stop
  | 1 => some .start
  | 2 => some .test
  | 3 => some .stat
  | 4 => some .update
  | _ => none

/-- The fields of `edfi_cmd_data_t`. -/
structure CmdData where
  cmd : ℕ
  status : ℕ
  contextSize : ℕ
  paramsSize : ℕ
  context : ℕ
  params : ℕ
  deriving DecidableEq, Repr

/-- `sizeof(edfi_cmd_data_t)`: the structure is packed. -/
def sizeofCmdData : ℕ := 40

/-- The bytes of a command header. -/
def CmdData.encode (d : CmdData) : List UInt8 :=
  wordLE 4 d.cmd ++ (wordLE 4 d.status ++ (wordLE 8 d.contextSize ++ (wordLE 8 d.paramsSize ++
    (wordLE 8 d.context ++ wordLE 8 d.params))))

/-- The fields that the bytes of a header stand for. -/
def CmdData.decode (bs : List UInt8) : CmdData where
  cmd := ofWordLE (bs.take 4)
  status := ofWordLE ((bs.drop 4).take 4)
  contextSize := ofWordLE ((bs.drop 8).take 8)
  paramsSize := ofWordLE ((bs.drop 16).take 8)
  context := ofWordLE ((bs.drop 24).take 8)
  params := ofWordLE ((bs.drop 32).take 8)

/-- The size of `edfi_context_t`; one of its fields is `dflib_path[512]`. -/
structure ContextType where
  size : ℕ
  size_ge : 512 ≤ size
  size_lt : size < 2 ^ 32

/-! ### The client -/

/-- The argument of `edfi_ctl_client_send`, with the bytes its pointers point to. -/
structure Command where
  cmd : EdfiCtlCmd
  status : ℕ
  contextPtr : ℕ
  paramsPtr : ℕ
  context : List UInt8
  params : List UInt8

/-- The header of a command. -/
def Command.header (c : Command) : CmdData :=
  ⟨c.cmd.toNat, c.status, c.context.length, c.params.length, c.contextPtr, c.paramsPtr⟩

/-- `edfi_ctl_client_send` up to its `recv`: what the three `send` calls put on the stream, or
    `none` for `EINVAL`. -/
def edfiCtlClientSend (c : Command) : Option (List UInt8) :=
  if c.params.length > 0 ∧ c.context.length = 0 then none
  else some (c.header.encode ++ ((if c.context.length > 0 then c.context else []) ++
    if c.params.length > 0 then c.params else []))

/-! ### The server -/

/-- One end of a connection: the bytes not yet received, and how many bytes the next `recv`
    calls return at most. -/
structure Socket where
  stream : List UInt8
  split : List ℕ

/-- `recv(s, buf, n, 0)` on a connection whose peer sends `stream`: at least one byte and at
    most what was asked for, or nothing at the end of the stream. -/
def recv (s : Socket) (n : ℕ) : List UInt8 × Socket :=
  let k := min (max 1 (s.split.headD n)) n
  (s.stream.take k, ⟨s.stream.drop k, s.split.tail⟩)

/-- A zeroed buffer of `n` bytes into which `bs` was received. -/
def zeroExtend (n : ℕ) (bs : List UInt8) : List UInt8 := bs ++ List.replicate (n - bs.length) 0

/-- Where `data.context` and `data.params` point when the request is processed: into the
    buffer, or wherever the client's pointers point. -/
inductive Payload
  | buffer (bytes : List UInt8)
  | pointers (context params : ℕ)
  deriving DecidableEq, Repr

/-- What becomes of a connection: `exit(1)`, or a call of `edfi_ctl_process_request`. -/
inductive Served
  | exited
  | processed (cmd : ℕ) (payload : Payload)
  deriving DecidableEq, Repr

/-- The header as the server sees it: `data` is zeroed, then received into. -/
def recvHeader (s : Socket) : CmdData :=
  CmdData.decode (zeroExtend sizeofCmdData (recv s sizeofCmdData).1)

/-- What the server does once it has read a header. -/
def serveHeader (T : ContextType) (data : CmdData) (s : Socket) : Served :=
  let dataBuffSize := (data.contextSize + data.paramsSize) % 2 ^ 64
  if dataBuffSize > 0 then
    if data.contextSize ≠ T.size then .exited
    -- the length that `recv` returns is not looked at
    else .processed data.cmd (.buffer (zeroExtend dataBuffSize (recv s dataBuffSize).1))
  else .processed data.cmd (.pointers data.context data.params)

/-- The body of the server's loop between `accept` and `send`. -/
def serveConnection (T : ContextType) (s : Socket) : Served :=
  serveHeader T (recvHeader s) (recv s sizeofCmdData).2

/-- The commands that `edfi_process_cmd` runs for a connection. -/
def executed : Served → List (EdfiCtlCmd × Payload)
  | .exited => []
  | .processed cmd payload => ((EdfiCtlCmd.ofNat? cmd).map (·, payload)).toList

/-! ### Headers -/

@[simp] theorem CmdData.encode_length (d : CmdData) : d.encode.length = 40 := by
  simp [CmdData.encode]

/-- A run of bytes in front is read back. -/
theorem ofWordLE_take_append {k n : ℕ} (hn : n < 256 ^ k) (rest : List UInt8) :
    ofWordLE ((wordLE k n ++ rest).take k) = n := by
  have htake : (wordLE k n ++ rest).take k = wordLE k n := by
    rw [List.take_left' (wordLE_length k n)]
  rw [htake, ofWordLE_wordLE, Nat.mod_eq_of_lt hn]

/-- The command and the sizes of a header are read back from its bytes. -/
theorem CmdData.decode_encode (d : CmdData) (hcmd : d.cmd < 256 ^ 4)
    (hc : d.contextSize < 256 ^ 8) (hp : d.paramsSize < 256 ^ 8) :
    (decode d.encode).cmd = d.cmd ∧ (decode d.encode).contextSize = d.contextSize ∧
      (decode d.encode).paramsSize = d.paramsSize := by
  -- dropping whole fields leaves the fields behind them
  have h8 : d.encode.drop 8 = wordLE 8 d.contextSize ++ (wordLE 8 d.paramsSize ++
      (wordLE 8 d.context ++ wordLE 8 d.params)) := by
    rw [encode, ← List.append_assoc]
    exact List.drop_left' (by simp)
  have h16 : d.encode.drop 16 = wordLE 8 d.paramsSize ++
      (wordLE 8 d.context ++ wordLE 8 d.params) := by
    rw [show (16 : ℕ) = 8 + 8 from rfl, ← List.drop_drop, h8]
    exact List.drop_left' (by simp)
  refine ⟨ofWordLE_take_append hcmd _, ?_, ?_⟩
  · show ofWordLE ((d.encode.drop 8).take 8) = _
    rw [h8]
    exact ofWordLE_take_append hc _
  · show ofWordLE ((d.encode.drop 16).take 8) = _
    rw [h16]
    exact ofWordLE_take_append hp _

@[simp] theorem EdfiCtlCmd.ofNat?_toNat (c : EdfiCtlCmd) : ofNat? c.toNat = some c := by
  cases c <;> rfl

theorem EdfiCtlCmd.toNat_lt (c : EdfiCtlCmd) : c.toNat < 256 ^ 4 := by
  cases c <;> decide

/-! ### Buffers -/

/-- A buffer that was filled has no zeros appended. -/
theorem zeroExtend_of_length {n : ℕ} {bs : List UInt8} (h : bs.length = n) :
    zeroExtend n bs = bs := by
  rw [zeroExtend, h, Nat.sub_self, List.replicate_zero, List.append_nil]

/-- Past what was received a buffer is zero. -/
theorem zeroExtend_getElem? {n i : ℕ} {bs : List UInt8} (hi : bs.length ≤ i) (hn : i < n) :
    (zeroExtend n bs)[i]? = some 0 := by
  rw [zeroExtend, List.getElem?_append_right hi, List.getElem?_replicate, if_pos (by omega)]

/-- A call that returns all it asks for. -/
theorem recv_all {xs rest : List UInt8} {n k : ℕ} {split : List ℕ} (hxs : xs.length = n)
    (hk : n ≤ k) : recv ⟨xs ++ rest, k :: split⟩ n = (xs, ⟨rest, split⟩) := by
  have hmin : min (max 1 k) n = n := Nat.min_eq_right (le_trans hk (le_max_right 1 k))
  simp only [recv, List.headD_cons, List.tail_cons, hmin, List.take_left' hxs, List.drop_left' hxs]

/-- A call returns at most what had arrived, and one byte at least. -/
theorem recv_length_le (bs : List UInt8) (k n : ℕ) (split : List ℕ) :
    (recv ⟨bs, k :: split⟩ n).1.length ≤ max 1 k := by
  show (bs.take (min (max 1 k) n)).length ≤ max 1 k
  rw [List.length_take]
  exact le_trans (min_le_left _ _) (min_le_left _ _)

/-- A call for at least one byte returns the first one that is left. -/
theorem recv_head {s : Socket} {n : ℕ} {x : UInt8} {rest : List UInt8} (hn : 0 < n)
    (hs : s.stream = x :: rest) : ∃ bs, (recv s n).1 = x :: bs := by
  obtain ⟨k, hk⟩ : ∃ k, min (max 1 (s.split.headD n)) n = k + 1 :=
    Nat.exists_eq_succ_of_ne_zero (by omega)
  refine ⟨rest.take k, ?_⟩
  show s.stream.take (min (max 1 (s.split.headD n)) n) = x :: rest.take k
  rw [hk, hs, List.take_succ_cons]

/-! ### Commands with a context -/

section Deliver

variable {T : ContextType} {c : Command}

/-- What the client sends for a command with a context. -/
theorem edfiCtlClientSend_eq (hc : c.context.length = T.size) :
    edfiCtlClientSend c = some (c.header.encode ++ (c.context ++ c.params)) := by
  have hpos := T.size_ge
  rw [edfiCtlClientSend, if_neg (by omega), if_pos (by omega)]
  by_cases hp : c.params.length > 0
  · rw [if_pos hp]
  · rw [if_neg hp, List.eq_nil_of_length_eq_zero (by omega : c.params.length = 0)]

/-- If the first call returns the whole header, the second asks for the whole payload. -/
theorem serveConnection_of_header (hc : c.context.length = T.size)
    (hsize : T.size + c.params.length < 2 ^ 64) {k₁ : ℕ} (hk : 40 ≤ k₁) (split : List ℕ) :
    serveConnection T ⟨c.header.encode ++ (c.context ++ c.params), k₁ :: split⟩ =
      .processed c.cmd.toNat (.buffer (zeroExtend (T.size + c.params.length)
        (recv ⟨c.context ++ c.params, split⟩ (T.size + c.params.length)).1)) := by
  have hpos := T.size_ge
  obtain ⟨hcmd, hcs, hps⟩ := CmdData.decode_encode c.header c.cmd.toNat_lt
    (show c.context.length < 256 ^ 8 by omega) (show c.params.length < 256 ^ 8 by omega)
  have hrecv : recv ⟨c.header.encode ++ (c.context ++ c.params), k₁ :: split⟩ sizeofCmdData =
      (c.header.encode, ⟨c.context ++ c.params, split⟩) :=
    recv_all c.header.encode_length hk
  have hdata : (c.header.contextSize + c.header.paramsSize) % 2 ^ 64 =
      T.size + c.params.length := by
    show (c.context.length + c.params.length) % 2 ^ 64 = _
    rw [hc, Nat.mod_eq_of_lt hsize]
  rw [serveConnection, recvHeader, hrecv,
    zeroExtend_of_length (show c.header.encode.length = sizeofCmdData from c.header.encode_length)]
  simp only [serveHeader, hcmd, hcs, hps, hdata]
  rw [if_pos (by omega), if_neg (fun h => h hc)]
  rfl

/-- Commands with a context and `p` bytes of parameters arrive intact, whatever they are, if
    the two `recv` calls return at most `k₁` and `k₂` bytes. -/
def DeliversIntact (T : ContextType) (p k₁ k₂ : ℕ) : Prop :=
  ∀ c : Command, c.context.length = T.size → c.params.length = p →
    ∀ bs, edfiCtlClientSend c = some bs →
      executed (serveConnection T ⟨bs, [k₁, k₂]⟩) = [(c.cmd, .buffer (c.context ++ c.params))]

/-- The command used to tell sizes apart: every payload byte is `b`. -/
def uniformCommand (T : ContextType) (p : ℕ) (b : UInt8) : Command :=
  ⟨.start, 0, 0, 0, List.replicate T.size b, List.replicate p b⟩

/-- A buffer that reaches a command starts with the first byte the second call can see. -/
theorem serveHeader_head {d : CmdData} {s : Socket} {x : UInt8} {rest buf : List UInt8}
    {cmd : EdfiCtlCmd} (hs : s.stream = x :: rest)
    (h : executed (serveHeader T d s) = [(cmd, .buffer buf)]) : buf.head? = some x := by
  set n := (d.contextSize + d.paramsSize) % 2 ^ 64 with hn
  simp only [serveHeader, ← hn] at h
  by_cases hpos : n > 0
  · rw [if_pos hpos] at h
    by_cases hsize : d.contextSize ≠ T.size
    · rw [if_pos hsize] at h
      exact absurd h (by simp [executed])
    · rw [if_neg hsize] at h
      simp only [executed, Option.toList_eq_singleton_iff, Option.map_eq_some_iff, Prod.mk.injEq,
        Payload.buffer.injEq] at h
      obtain ⟨-, -, -, rfl⟩ := h
      obtain ⟨bs, hbs⟩ := recv_head hpos hs
      rw [zeroExtend, hbs, List.cons_append, List.head?_cons]
  · rw [if_neg hpos] at h
    simp [executed, Option.toList_eq_singleton_iff] at h

/-- If the first call cuts the header short, a byte of the header ends up in the context. -/
theorem not_deliversIntact_of_short_header {p k₁ k₂ : ℕ} (hk : k₁ < 40) :
    ¬ DeliversIntact T p k₁ k₂ := by
  intro h
  have hpos := T.size_ge
  set m := min (max 1 k₁) 40 with hm
  -- the header does not depend on the payload: pick a payload that differs from its byte `m`
  have hhead : ∀ b, (uniformCommand T p b).header = (uniformCommand T p 0).header := by
    intro b
    simp [uniformCommand, Command.header]
  have hlen : m < (uniformCommand T p 0).header.encode.length := by
    rw [CmdData.encode_length]
    omega
  set b : UInt8 := (uniformCommand T p 0).header.encode.get ⟨m, hlen⟩ with hb
  have hcontext : (uniformCommand T p (b + 1)).context.length = T.size := by simp [uniformCommand]
  have hexec := h _ hcontext (by simp [uniformCommand]) _ (edfiCtlClientSend_eq hcontext)
  have hrest : (recv ⟨(uniformCommand T p (b + 1)).header.encode ++
      ((uniformCommand T p (b + 1)).context ++ (uniformCommand T p (b + 1)).params), [k₁, k₂]⟩
        sizeofCmdData).2.stream = b :: ((uniformCommand T p 0).header.encode.drop (m + 1) ++
          ((uniformCommand T p (b + 1)).context ++ (uniformCommand T p (b + 1)).params)) := by
    show List.drop m (_ ++ _) = _
    rw [hhead, List.drop_append_of_le_length (le_of_lt hlen), List.drop_eq_getElem_cons hlen]
    rfl
  have hfirst := serveHeader_head hrest hexec
  obtain ⟨n, hn⟩ := Nat.exists_eq_succ_of_ne_zero (show T.size ≠ 0 by omega)
  simp [uniformCommand, hn, List.replicate_succ] at hfirst

/-- If the second call returns less than the payload, its end reads as zero. -/
theorem not_deliversIntact_of_short_payload {p k₁ k₂ : ℕ} (hsize : T.size + p < 2 ^ 64)
    (hk₁ : 40 ≤ k₁) (hk₂ : k₂ < T.size + p) : ¬ DeliversIntact T p k₁ k₂ := by
  intro h
  have hpos := T.size_ge
  have hcontext : (uniformCommand T p 1).context.length = T.size := by simp [uniformCommand]
  have hparams : (uniformCommand T p 1).params.length = p := by simp [uniformCommand]
  have hexec := h _ hcontext hparams _ (edfiCtlClientSend_eq hcontext)
  rw [serveConnection_of_header hcontext (by rwa [hparams]) hk₁, hparams] at hexec
  simp only [executed, EdfiCtlCmd.ofNat?_toNat, Option.map_some, Option.toList_some,
    List.cons.injEq, Prod.mk.injEq, Payload.buffer.injEq, true_and, and_true] at hexec
  -- byte `max 1 k₂` was not received
  have hzero : (zeroExtend (T.size + p) (recv ⟨(uniformCommand T p 1).context ++
      (uniformCommand T p 1).params, [k₂]⟩ (T.size + p)).1)[max 1 k₂]? = some 0 := by
    exact zeroExtend_getElem? (recv_length_le _ k₂ _ []) (by omega)
  have hone : ((uniformCommand T p 1).context ++ (uniformCommand T p 1).params)[max 1 k₂]? =
      some 1 := by
    rw [uniformCommand, List.replicate_append_replicate, List.getElem?_replicate, if_pos (by omega)]
  rw [hexec, hone] at hzero
  exact absurd hzero (by decide)

/-- Both calls returning all they ask for is also enough. -/
theorem deliversIntact_of_full {p k₁ k₂ : ℕ} (hsize : T.size + p < 2 ^ 64) (hk₁ : 40 ≤ k₁)
    (hk₂ : T.size + p ≤ k₂) : DeliversIntact T p k₁ k₂ := by
  intro c hcontext hparams bs hbs
  rw [edfiCtlClientSend_eq hcontext, Option.some.injEq] at hbs
  subst hbs
  have hlen : (c.context ++ c.params).length = T.size + p := by
    rw [List.length_append, hcontext, hparams]
  have hrecv : recv ⟨c.context ++ c.params ++ [], [k₂]⟩ (T.size + p) =
      (c.context ++ c.params, ⟨[], []⟩) := recv_all hlen hk₂
  rw [List.append_nil] at hrecv
  rw [serveConnection_of_header hcontext (by rwa [hparams]) hk₁, hparams, hrecv,
    zeroExtend_of_length hlen]
  simp [executed]

/-! ### Connections that end early -/

/-- The server runs nothing for a header: it stops at the context size, or the command is not
    one of the five. -/
def Refused (T : ContextType) (d : CmdData) : Prop :=
  (0 < (d.contextSize + d.paramsSize) % 2 ^ 64 ∧ d.contextSize ≠ T.size) ∨
    EdfiCtlCmd.ofNat? d.cmd = none

instance (d : CmdData) : Decidable (Refused T d) := inferInstanceAs (Decidable (_ ∨ _))

/-- No command runs exactly for the headers that are refused, however much follows them. -/
theorem executed_serveHeader_eq_nil_iff (d : CmdData) (s : Socket) :
    executed (serveHeader T d s) = [] ↔ Refused T d := by
  set n := (d.contextSize + d.paramsSize) % 2 ^ 64 with hn
  simp only [serveHeader, Refused, ← hn]
  by_cases hpos : 0 < n
  · rw [if_pos hpos]
    by_cases hsize : d.contextSize ≠ T.size
    · rw [if_pos hsize]
      simp [executed, hpos, hsize]
    · rw [if_neg hsize]
      simp [executed, hsize]
  · rw [if_neg hpos]
    simp [executed, hpos]

/-- **Delivery.**  For commands with a context and `p` bytes of parameters, and for every way
    in which the stream is split, the server runs each of them with the sent context and
    parameters exactly if the first `recv` call returns the whole header and the second the
    whole payload.  A connection closed before a full header was sent runs no command exactly
    if the header fields that arrived, the rest taken as zero, are refused. -/
theorem ctl_delivers_iff (T : ContextType) :
    (∀ p k₁ k₂, T.size + p < 2 ^ 64 →
      (DeliversIntact T p k₁ k₂ ↔ 40 ≤ k₁ ∧ T.size + p ≤ k₂)) ∧
    ∀ (sent : List UInt8) (split : List ℕ), sent.length < 40 →
      (executed (serveConnection T ⟨sent, split⟩) = [] ↔ Refused T (recvHeader ⟨sent, split⟩)) := by
  refine ⟨fun p k₁ k₂ hsize => ⟨fun h => ?_, fun h => ?_⟩, fun sent split _ => ?_⟩
  · by_contra hshort
    rcases Nat.lt_or_ge k₁ 40 with hk | hk
    · exact not_deliversIntact_of_short_header hk h
    · exact not_deliversIntact_of_short_payload hsize hk (by omega) h
  · exact deliversIntact_of_full hsize h.1 h.2
  · exact executed_serveHeader_eq_nil_iff _ _

end Deliver

/-- `edfi_context_t` on x86-64. -/
def sampleContextType : ContextType := ⟨640, by decide, by decide⟩

theorem ctl_delivers_iff_sample :
    DeliversIntact sampleContextType 16 40 656 ∧
      executed (serveConnection sampleContextType ⟨List.replicate 9 1, [9]⟩) = [] :=
  ⟨((ctl_delivers_iff sampleContextType).1 16 40 656 (by decide)).mpr ⟨by decide, by decide⟩,
    ((ctl_delivers_iff sampleContextType).2 _ _ (by decide)).mpr (by decide +kernel)⟩

/-- If the second `recv` call returns the context before the parameters have been sent, the
    server starts with empty parameters; and a connection that is closed at once stops the
    fault injection. -/
theorem split_params_lost_and_early_close_stops :
    executed (serveConnection sampleContextType
        ⟨(edfiCtlClientSend ⟨.start, 0, 0, 0, List.replicate 640 7, [1, 2]⟩).getD [], [40, 640]⟩) =
      [(.start, .buffer (List.replicate 640 7 ++ [0, 0]))] ∧
    executed (serveConnection sampleContextType ⟨[], []⟩) = [(.stop, .pointers 0 0)] := by
  constructor <;> decide +kernel

end Firestarter.Edfi
