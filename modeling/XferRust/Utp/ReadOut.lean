import XferRust.Utp.WriteOrder

/-! # What is received comes out

The bytes of the receive stream are acknowledged when they are appended to it.  They leave it for
the channel of the reader while there is room, at most 64 KiB a round; the rest is kept for the next
round.  A connection that is closed gets no next round: the manager drops it with what is left
(`Managed.dropped`).  A regular close waits until everything is taken out, a reset or a connection
that gives up does not.

The end of the stream is put into the channel behind all that was received, but the FIN is not
remembered: DATA that follows it in order is appended and put behind the end.

Without these two, the reader gets every byte in order, and sees the end behind them
(`delivered_iff`).
-/
namespace XferRust.Utp

open UtpConnection StepRun

/-! ## What a datagram appends -/

theorem seqLeq_next (n : UInt16) : seqLeq (n + 1) n = false := by
  have hone : n + 1 - n = 1 := by grind
  unfold seqLeq
  rw [hone]
  decide

theorem drainReorder_prefix (ack : UInt16) (out : List UInt8) (buffered : UInt32)
    (es : List (UInt16 × InPacket)) : out <+: (drainReorder ack out buffered es).2.1 := by
  induction es generalizing ack out buffered with
  | nil => exact List.prefix_refl out
  | cons e es ih =>
    obtain ⟨nextSeq, p⟩ := e
    rw [drainReorder]
    split
    · exact (List.prefix_append out p.payload).trans (ih _ _ _)
    · exact List.prefix_refl out

namespace UtpConnection

variable {s : UtpConnection}

/-- The datagram is DATA that comes next. -/
def TakesNext (s : UtpConnection) (data : List UInt8) : Prop :=
  match parsePacket data with
  | some (hdr, _, off) =>
    hdr.type_ = stData ∧ data.drop off ≠ [] ∧ s.state ≠ .synSent ∧ hdr.seqNr = s.ack + 1
  | none => False

instance (s : UtpConnection) (data : List UInt8) : Decidable (s.TakesNext data) := by
  unfold TakesNext
  split <;> infer_instance

theorem recvOut_onData_next {hdr : PacketHeader} {payload : List UInt8} (hne : payload ≠ [])
    (hnext : hdr.seqNr = s.ack + 1) : s.recvOut ++ payload <+: (s.onData hdr payload).recvOut := by
  unfold onData
  dsimp only
  rw [if_neg (mt List.isEmpty_iff.mp hne), hnext, if_neg (by rw [seqLeq_next]; decide), if_pos rfl]
  exact drainReorder_prefix _ _ _ _

theorem recvOut_onData_other {hdr : PacketHeader} {payload : List UInt8}
    (h : ¬ (payload ≠ [] ∧ hdr.seqNr = s.ack + 1)) :
    (s.onData hdr payload).recvOut = s.recvOut := by
  unfold onData
  dsimp only
  split
  · rfl
  · next hne =>
    split
    · rfl
    · split
      · next hnext => exact absurd ⟨mt List.isEmpty_iff.mpr hne, hnext⟩ h
      · split
        · rfl
        · rfl

theorem recvOut_onFirstData (s : UtpConnection) (hdr : PacketHeader) :
    (s.onFirstData hdr).recvOut = s.recvOut := by
  unfold onFirstData
  split
  · rfl
  · split
    · rfl
    · rfl

/-- Behind the first DATA of a connection that still waits, nothing is next. -/
theorem next_onFirstData (s : UtpConnection) (hdr : PacketHeader) :
    hdr.seqNr = (s.onFirstData hdr).ack + 1 ↔ s.state ≠ .synSent ∧ hdr.seqNr = s.ack + 1 := by
  unfold onFirstData
  split
  · next hst => exact ⟨fun h => ⟨by rw [hst]; decide, h⟩, And.right⟩
  · split
    · next hst =>
      have hne : hdr.seqNr ≠ hdr.seqNr + 1 := by grind
      exact ⟨fun h => absurd h hne, fun h => absurd hst h.1⟩
    · next hst => exact ⟨fun h => ⟨hst, h⟩, And.right⟩

theorem recvOut_received (s : UtpConnection) (hdr : PacketHeader) (payload : List UInt8) :
    (hdr.type_ = stData ∧ payload ≠ [] ∧ s.state ≠ .synSent ∧ hdr.seqNr = s.ack + 1 →
        s.recvOut ++ payload <+: (s.received hdr payload).recvOut) ∧
      (¬ (hdr.type_ = stData ∧ payload ≠ [] ∧ s.state ≠ .synSent ∧ hdr.seqNr = s.ack + 1) →
        (s.received hdr payload).recvOut = s.recvOut) := by
  unfold received
  by_cases hdata : hdr.type_ = stData
  · rw [if_neg (by rw [hdata]; decide), if_pos hdata]
    constructor
    · rintro ⟨-, hne, hnext⟩
      rw [← recvOut_onFirstData s hdr]
      exact recvOut_onData_next hne ((next_onFirstData s hdr).mpr hnext)
    · intro h
      rw [← recvOut_onFirstData s hdr]
      exact recvOut_onData_other fun ⟨hne, hnext⟩ =>
        h ⟨hdata, hne, (next_onFirstData s hdr).mp hnext⟩
  · refine ⟨fun h => absurd h.1 hdata, fun _ => ?_⟩
    rw [if_neg hdata]
    split
    · unfold onSynAck
      split
      · rfl
      · rfl
    · split
      · rw [← recvOut_onFirstData s hdr]
        unfold onFin
        dsimp only
        split
        · rfl
        · rfl
      · rfl

/-- A datagram appends to the receive stream exactly when it is DATA that comes next. -/
theorem recvOut_handlePacket (s : UtpConnection) (data : List UInt8) (env : Env) :
    s.recvOut <+: (s.handlePacket data env).recvOut ∧
      ((s.handlePacket data env).recvOut ≠ s.recvOut ↔ s.TakesNext data) := by
  unfold TakesNext
  cases hp : parsePacket data with
  | none =>
    rw [handlePacket_unparsed hp env]
    exact ⟨List.prefix_refl _, fun h => absurd rfl h, False.elim⟩
  | some r =>
    obtain ⟨hdr, exts, off⟩ := r
    have harr := quiet_onArrival s hdr env
    by_cases hreset : hdr.type_ = stReset
    · have hout : (s.handlePacket data env).recvOut = s.recvOut := by
        unfold handlePacket
        rw [hp]
        dsimp only
        rw [if_pos hreset]
        exact harr.recvOut
      rw [hout]
      exact ⟨List.prefix_refl _, fun h => absurd rfl h,
        fun h => absurd (hreset.symm.trans h.1) (by decide)⟩
    · rw [(quiet_handlePacket hp hreset env).recvOut]
      obtain ⟨hnext, hother⟩ := recvOut_received (s.onArrival hdr env) hdr (data.drop off)
      rw [harr.recvOut, harr.ack, state_onArrival] at hnext
      rw [harr.recvOut, harr.ack, state_onArrival] at hother
      dsimp only
      by_cases h : hdr.type_ = stData ∧ data.drop off ≠ [] ∧ s.state ≠ .synSent ∧
          hdr.seqNr = s.ack + 1
      · refine ⟨(List.prefix_append _ _).trans (hnext h), fun _ => h, fun _ heq => ?_⟩
        have hlen := (hnext h).length_le
        have hpos := List.length_pos_iff.mpr h.2.1
        rw [heq, List.length_append] at hlen
        omega
      · rw [hother h]
        exact ⟨List.prefix_refl _, fun hne => absurd rfl hne, fun h' => absurd h' h⟩

theorem not_takesNext_syn {data : List UInt8} (h : Managed.packetType data = some stSyn) :
    ¬ s.TakesNext data := by
  unfold Managed.packetType at h
  unfold TakesNext
  cases hp : parsePacket data with
  | none => exact False.elim
  | some r =>
    rw [hp] at h
    exact fun hnext => absurd (hnext.1.symm.trans (Option.some.inj h)) (by decide)

theorem recvOut_processTick (s : UtpConnection) (env : Env) :
    (s.processTick env).recvOut = s.recvOut := by
  obtain ⟨s₁, s₂, chunks, hfin, hflush, hquiet, -⟩ := processTick_spec s env
  have hfirst : s₁.recvOut = s.recvOut := by
    obtain rfl | hfin := hfin
    · rfl
    · exact congrArg RecvView.recvOut hfin.recv
  exact hquiet.recvOut.trans ((congrArg RecvView.recvOut hflush.recv).trans hfirst)

theorem recvOut_write (s : UtpConnection) (data : List UInt8) :
    (s.write data).1.recvOut = s.recvOut := by
  unfold write
  dsimp only
  split
  · rfl
  · rfl

theorem recvOut_close (s : UtpConnection) : s.close.recvOut = s.recvOut := by
  unfold close
  split
  · rfl
  · split
    · rfl
    · rfl

end UtpConnection

/-! ## What is on its way to the reader -/

/-- The bytes in front of the first error. -/
def leading : List (Option (List UInt8)) → List UInt8
  | [] => []
  | none :: _ => []
  | some data :: chunks => data ++ leading chunks

theorem leading_data {chunks : List (Option (List UInt8))} (h : none ∉ chunks)
    (data : List UInt8) : leading (chunks ++ [some data]) = leading chunks ++ data := by
  induction chunks with
  | nil => exact List.append_nil data
  | cons c chunks ih =>
    cases c with
    | none => exact absurd List.mem_cons_self h
    | some first =>
      rw [List.cons_append, leading, leading, ih fun hmem => h (List.mem_cons_of_mem _ hmem),
        List.append_assoc]

theorem leading_error (chunks : List (Option (List UInt8))) :
    leading (chunks ++ [none]) = leading chunks := by
  induction chunks with
  | nil => rfl
  | cons c chunks ih =>
    cases c with
    | none => rfl
    | some first => rw [List.cons_append, leading, leading, ih]

namespace ConnContext

/-- A round of `process_readable_data`: nothing, one chunk, or the end of the stream. -/
inductive HandedOver (c c' : ConnContext) : Prop
  | blocked (hno : ¬ (c.conn.wantRead = true ∧ c.chunks.length < channelCapacity)) (heq : c' = c)
  | chunk (hne : c.conn.recvOut ≠ []) (hwant : c.conn.wantRead = true)
      (hroom : c.chunks.length < channelCapacity)
      (hout : c'.conn.recvOut = c.conn.recvOut.drop utpReadChunk)
      (hchunks : c'.chunks = c.chunks ++ [some (c.conn.recvOut.take utpReadChunk)])
  | drained (hnil : c.conn.recvOut = []) (hout : c'.conn.recvOut = [])
      (hchunks : c'.chunks = c.chunks ∨ c'.chunks = c.chunks ++ [none])

theorem read_spec (s : UtpConnection) (n : Nat) :
    (s.read n).2 = s.recvOut.take n ∧ (s.read n).1.recvOut = s.recvOut.drop n ∧
      (s.read n).1.state = s.state ∧ (s.read n).1.error = s.error := by
  have hmin : s.recvOut.take (min n s.recvOut.length) = s.recvOut.take n := by
    rw [← List.take_take, List.take_length]
  have hmin' : s.recvOut.drop (min n s.recvOut.length) = s.recvOut.drop n := by
    obtain h | h := Nat.le_total n s.recvOut.length
    · rw [Nat.min_eq_left h]
    · rw [Nat.min_eq_right h, List.drop_length, List.drop_eq_nil_of_le h]
  exact ⟨hmin, hmin', rfl, rfl⟩

/-- What is read leaves no interest behind. -/
theorem read_wantRead {s : UtpConnection} {n : Nat} (h : (s.read n).2 ≠ []) :
    (s.read n).1.wantRead = false := by
  have hpos : min n s.recvOut.length ≠ 0 := by
    intro hzero
    refine h ?_
    show s.recvOut.take (min n s.recvOut.length) = []
    rw [hzero, List.take_zero]
  unfold UtpConnection.read
  exact decide_eq_false fun hc => hpos hc.1

theorem handOver_state (fuel : Nat) (conn : UtpConnection)
    (chunks : List (Option (List UInt8))) :
    (handOver fuel conn chunks).1.state = conn.state ∧
      (handOver fuel conn chunks).1.error = conn.error := by
  induction fuel generalizing conn chunks with
  | zero => exact ⟨rfl, rfl⟩
  | succ fuel ih =>
    rw [handOver]
    split
    · dsimp only
      split
      · exact ⟨rfl, rfl⟩
      · exact ih _ _
    · exact ⟨rfl, rfl⟩

theorem handOver_idle (fuel : Nat) {conn : UtpConnection} {chunks : List (Option (List UInt8))}
    (h : ¬ (conn.wantRead = true ∧ chunks.length < channelCapacity)) :
    handOver fuel conn chunks = (conn, chunks) := by
  cases fuel with
  | zero => rfl
  | succ fuel => rw [handOver, if_neg h]

theorem processReadableData_spec (c : ConnContext) : HandedOver c c.processReadableData := by
  unfold processReadableData
  dsimp only
  by_cases hopen : c.conn.wantRead = true ∧ c.chunks.length < channelCapacity
  · obtain ⟨hread, hrest, -⟩ := read_spec c.conn utpReadChunk
    rw [handOver, if_pos hopen]
    dsimp only
    by_cases hnil : c.conn.recvOut = []
    · have hnone : (c.conn.read utpReadChunk).2 = [] := by rw [hread, hnil, List.take_nil]
      rw [if_pos hnone]
      refine .drained hnil (by rw [hrest, hnil, List.drop_nil]) ?_
      dsimp only
      split
      · exact .inr rfl
      · exact .inl rfl
    · have hsome : (c.conn.read utpReadChunk).2 ≠ [] := by
        rw [hread, Ne, List.take_eq_nil_iff]
        exact fun h => h.elim (by decide) hnil
      rw [if_neg hsome, handOver_idle _ fun h => by
        rw [read_wantRead hsome] at h
        exact Bool.noConfusion h.1]
      exact .chunk hnil hopen.1 hopen.2 hrest (by rw [hread])
  · rw [handOver_idle _ hopen]
    exact .blocked hopen rfl

theorem processReadableData_closed (c : ConnContext) :
    c.processReadableData.conn.isClosed = c.conn.isClosed ∧
      c.processReadableData.conn.hasError = c.conn.hasError := by
  obtain ⟨hstate, herror⟩ := handOver_state (c.conn.recvOut.length + 1) c.conn c.chunks
  refine ⟨?_, herror⟩
  show decide (_ = UtpState.closed) = decide (_ = UtpState.closed)
  rw [← hstate]
  rfl

theorem recvOut_drainBacklog (fuel : Nat) (conn : UtpConnection) (backlog : List UInt8) :
    (drainBacklog fuel conn backlog).1.recvOut = conn.recvOut := by
  induction fuel generalizing conn backlog with
  | zero => rfl
  | succ fuel ih =>
    rw [drainBacklog]
    split
    · rfl
    · dsimp only
      split
      · exact recvOut_write conn backlog
      · rw [ih, recvOut_write]

theorem finalize_spec (c : ConnContext) :
    c.finalize.conn = c.conn ∧ (c.finalize.chunks = c.chunks ∨ c.finalize.chunks = c.chunks ++ [none]) := by
  unfold finalize
  split
  · exact ⟨rfl, .inr rfl⟩
  · exact ⟨rfl, .inl rfl⟩

end ConnContext

namespace Managed

variable {m m' : Managed} {e : ManagedEvent}

/-- The bytes that the reader still gets. -/
def pending (m : Managed) : List UInt8 := if m.ended then [] else leading m.ctx.chunks

/-- The reader has seen the end or an error, or sees it when the channel is empty. -/
def EndInSight (m : Managed) : Prop :=
  m.ended = true ∨ none ∈ m.ctx.chunks ∨ m.stage = .removed

instance (m : Managed) : Decidable m.EndInSight := inferInstanceAs (Decidable (_ ∨ _ ∨ _))

/-- **The bytes come out in order**, and the reader gets all of them before the end or an error. -/
structure Delivered (m : Managed) : Prop where
  inOrder : m.got ++ m.pending <+: m.appended
  whole : m.EndInSight → m.got ++ m.pending = m.appended

/-- **Nothing comes behind the end, and nothing is left behind.**  When the end is in the channel no
DATA comes next, and in the last round of a connection the receive stream is empty, or the reader
is waited for and takes the rest as one chunk. -/
def HandsOver (m : Managed) (e : ManagedEvent) : Prop :=
  match e with
  | .datagram _ data => m.EndInSight → ¬ m.ctx.conn.TakesNext data
  | .readable =>
    m.ctx.conn.isClosed = true ∨ m.ctx.conn.hasError = true →
      m.ctx.conn.recvOut = [] ∨ m.ctx.conn.wantRead = true ∧
        m.ctx.chunks.length < channelCapacity ∧ m.ctx.conn.recvOut.length ≤ utpReadChunk
  | _ => True

instance decidableHandsOver (m : Managed) : (e : ManagedEvent) → Decidable (m.HandsOver e)
  | .datagram _ data => inferInstanceAs (Decidable (m.EndInSight → ¬ m.ctx.conn.TakesNext data))
  | .readable => inferInstanceAs (Decidable (_ ∨ _ → _ ∨ _))
  | .send _ | .recv | .tick _ | .collect | .command _ | .resentSyn _ _ => instDecidableTrue

/-- What keeps the bytes in order: they are with the reader, in the channel or in the stream, which
is empty when the end is in sight. -/
structure Kept (m : Managed) : Prop where
  stream : m.got ++ m.pending ++ m.ctx.conn.recvOut = m.appended
  empty : m.EndInSight → m.ctx.conn.recvOut = []

theorem Kept.delivered (h : m.Kept) : m.Delivered where
  inOrder := ⟨_, h.stream⟩
  whole hend := by
    have hstream := h.stream
    rw [h.empty hend, List.append_nil] at hstream
    exact hstream

theorem kept_start (conn : UtpConnection) : (start conn).Kept where
  stream := rfl
  empty hend := by
    obtain h | h | h := hend
    · cases h
    · cases h
    · cases h

/-- A step that leaves the receive stream, the channel and the reader alone. -/
theorem Kept.of_eq (h : m.Kept) (hgot : m'.got = m.got) (hended : m'.ended = m.ended)
    (hchunks : m'.ctx.chunks = m.ctx.chunks) (hout : m'.ctx.conn.recvOut = m.ctx.conn.recvOut)
    (happended : m'.appended = m.appended) (hstage : m'.stage = .removed → m.stage = .removed) :
    m'.Kept where
  stream := by
    have hpending : m'.pending = m.pending := by rw [pending, pending, hended, hchunks]
    rw [hgot, hpending, hout, happended]
    exact h.stream
  empty hend := by
    rw [hout]
    refine h.empty ?_
    unfold EndInSight at hend
    rw [hended, hchunks] at hend
    exact hend.imp_right (Or.imp_right hstage)

theorem Kept.command (h : m.Kept) {cmd : UtpCmd} {rest : List UtpCmd} {env : Env}
    (hstage : m.stage = .commands (cmd :: rest)) : (m.command cmd rest env).Kept := by
  have hne : (m.command cmd rest env).stage ≠ .removed := by
    cases rest with
    | nil => exact Stage.noConfusion
    | cons cmd' rest => exact Stage.noConfusion
  cases cmd with
  | write data =>
    refine h.of_eq rfl rfl rfl ?_ rfl fun hr => absurd hr hne
    exact (recvOut_processTick _ env).trans (recvOut_write _ data)
  | close =>
    refine h.of_eq rfl rfl rfl ?_ rfl fun hr => absurd hr hne
    exact (recvOut_processTick _ env).trans (recvOut_close _)

theorem Kept.handle (h : m.Kept) {env : Env} {data : List UInt8}
    (hnext : m.EndInSight → ¬ m.ctx.conn.TakesNext data) : (m.handle env data).Kept := by
  obtain ⟨hfront, hsame⟩ := recvOut_handlePacket m.ctx.conn data env
  constructor
  · obtain ⟨tail, htail⟩ := hfront
    show m.got ++ m.pending ++ (m.ctx.conn.handlePacket data env).recvOut =
      m.appended ++ (m.ctx.conn.handlePacket data env).recvOut.drop m.ctx.conn.recvOut.length
    rw [← htail, List.drop_left, ← h.stream, List.append_assoc _ _ tail]
  · intro hend
    have hend : m.EndInSight := hend
    exact (Classical.not_not.mp (mt hsame.mp (hnext hend))).trans (h.empty hend)

theorem Kept.recv (h : m.Kept) (hs : m.recv = some m') : m'.Kept := by
  unfold Managed.recv at hs
  split at hs
  · cases hs
  · next hended =>
    have hpending : m.pending = leading m.ctx.chunks := if_neg hended
    split at hs
    · next data rest hchunks =>
      obtain rfl := Option.some.inj hs
      rw [hchunks, leading] at hpending
      constructor
      · show m.got ++ data ++ (if m.ended then [] else leading rest) ++ _ = m.appended
        rw [if_neg hended, List.append_assoc m.got, ← hpending]
        exact h.stream
      · intro hend
        refine h.empty (hend.imp_right (Or.imp_left fun hmem => ?_))
        rw [hchunks]
        exact List.mem_cons_of_mem _ hmem
    · next rest hchunks =>
      obtain rfl := Option.some.inj hs
      have hnil : m.ctx.conn.recvOut = [] :=
        h.empty (.inr (.inl (hchunks ▸ List.mem_cons_self)))
      rw [hchunks, leading] at hpending
      have hstream := h.stream
      rw [hpending] at hstream
      exact ⟨hstream, fun _ => hnil⟩
    · next hchunks =>
      split at hs
      · next hremoved =>
        obtain rfl := Option.some.inj hs
        rw [hchunks, leading] at hpending
        have hstream := h.stream
        rw [hpending] at hstream
        exact ⟨hstream, fun _ => h.empty (.inr (.inr hremoved))⟩
      · cases hs

/-- A round of the reading keeps the bytes together. -/
theorem Kept.handedOver (h : m.Kept) {c : ConnContext} (hspec : ConnContext.HandedOver m.ctx c) :
    Kept { m with ctx := c } := by
  cases hspec with
  | blocked hno heq =>
    rw [heq]
    exact h
  | chunk hne hwant hroom hout hchunks =>
    have hfar : ¬ m.EndInSight := fun hend => hne (h.empty hend)
    have hended : ¬ m.ended = true := fun he => hfar (.inl he)
    have hnone : none ∉ m.ctx.chunks := fun he => hfar (.inr (.inl he))
    have hpending : m.pending = leading m.ctx.chunks := if_neg hended
    constructor
    · show m.got ++ (if m.ended then [] else leading c.chunks) ++ c.conn.recvOut = m.appended
      rw [if_neg hended, hchunks, leading_data hnone, hout, List.append_assoc,
        List.append_assoc, List.take_append_drop, ← hpending, ← List.append_assoc]
      exact h.stream
    · intro hend
      refine absurd (hend.imp_right (Or.imp_left fun hmem => ?_)) hfar
      have hmem : none ∈ c.chunks := hmem
      rw [hchunks, List.mem_append] at hmem
      obtain hmem | hmem := hmem
      · exact hmem
      · cases List.mem_singleton.mp hmem
  | drained hnil hout hchunks =>
    have hleading : leading c.chunks = leading m.ctx.chunks := by
      obtain heq | heq := hchunks
      · rw [heq]
      · rw [heq, leading_error]
    constructor
    · show m.got ++ (if m.ended then [] else leading c.chunks) ++ c.conn.recvOut = m.appended
      have hstream := h.stream
      rw [hnil] at hstream
      rw [hleading, hout]
      exact hstream
    · exact fun _ => hout

/-- The error of the last round changes nothing in front of it. -/
theorem pending_finalize (m : Managed) :
    pending { m with ctx := m.ctx.finalize, stage := .removed } = m.pending := by
  obtain ⟨-, heq | heq⟩ := m.ctx.finalize_spec
  · show (if m.ended then [] else leading m.ctx.finalize.chunks) = _
    rw [heq]
    rfl
  · show (if m.ended then [] else leading m.ctx.finalize.chunks) = _
    rw [heq, leading_error]
    rfl

theorem Kept.finalize (h : m.Kept) (hnil : m.ctx.conn.recvOut = []) :
    Kept { m with ctx := m.ctx.finalize, stage := .removed } := by
  have hconn := m.ctx.finalize_spec.1
  constructor
  · show m.got ++ pending { m with ctx := m.ctx.finalize, stage := .removed } ++
      m.ctx.finalize.conn.recvOut = m.appended
    rw [pending_finalize, hconn]
    exact h.stream
  · intro _
    show m.ctx.finalize.conn.recvOut = []
    rw [hconn, hnil]

/-- The last round leaves nothing in the receive stream exactly when the rest is one chunk that the
channel takes. -/
theorem last_round (m : Managed) :
    m.ctx.processReadableData.conn.recvOut = [] ↔
      m.ctx.conn.recvOut = [] ∨ m.ctx.conn.wantRead = true ∧
        m.ctx.chunks.length < channelCapacity ∧ m.ctx.conn.recvOut.length ≤ utpReadChunk := by
  cases m.ctx.processReadableData_spec with
  | blocked hno heq =>
    rw [heq]
    exact ⟨.inl, fun h => h.elim id fun h => absurd ⟨h.1, h.2.1⟩ hno⟩
  | chunk hne hwant hroom hout hchunks =>
    rw [hout, List.drop_eq_nil_iff]
    exact ⟨fun h => .inr ⟨hwant, hroom, h⟩, fun h => h.elim (fun h => absurd h hne) (·.2.2)⟩
  | drained hnil hout hchunks => exact ⟨fun _ => .inl hnil, fun _ => hout⟩

theorem readable_open (h : ¬ (m.ctx.conn.isClosed = true ∨ m.ctx.conn.hasError = true)) :
    m.readable = { m with ctx := m.ctx.processReadableData, stage := .idle } := by
  obtain ⟨hclosed, herror⟩ := m.ctx.processReadableData_closed
  unfold readable
  dsimp only
  rw [hclosed, herror, if_neg h]

theorem readable_closed (h : m.ctx.conn.isClosed = true ∨ m.ctx.conn.hasError = true) :
    m.readable = { m with ctx := m.ctx.processReadableData.finalize, stage := .removed } := by
  obtain ⟨hclosed, herror⟩ := m.ctx.processReadableData_closed
  unfold readable
  dsimp only
  rw [hclosed, herror, if_pos h]

theorem Kept.readable (h : m.Kept) (hover : m.HandsOver .readable) : m.readable.Kept := by
  have hkept := h.handedOver m.ctx.processReadableData_spec
  by_cases hclosed : m.ctx.conn.isClosed = true ∨ m.ctx.conn.hasError = true
  · rw [readable_closed hclosed]
    exact hkept.finalize (m.last_round.mpr (hover hclosed))
  · rw [readable_open hclosed]
    exact hkept.of_eq rfl rfl rfl rfl rfl Stage.noConfusion

theorem Kept.step (h : m.Kept) (he : m.HandsOver e) (hs : m.step e = some m') : m'.Kept := by
  unfold Managed.step at hs
  split at hs
  · cases hs
  · split at hs
    · obtain rfl := Option.some.inj hs
      exact h.of_eq rfl rfl rfl rfl rfl id
    · cases hs
  · exact h.recv hs
  · obtain rfl := Option.some.inj hs
    exact h.of_eq rfl rfl rfl (recvOut_processTick _ _) rfl Stage.noConfusion
  · -- collect
    obtain rfl := Option.some.inj hs
    have hcollect : m.collect.Kept :=
      h.of_eq rfl rfl rfl (ConnContext.recvOut_drainBacklog _ _ _) rfl Stage.noConfusion
    split
    · exact hcollect.of_eq rfl rfl rfl rfl rfl Stage.noConfusion
    · exact hcollect
  · next hstage =>
    obtain rfl := Option.some.inj hs
    exact h.command hstage
  · obtain rfl := Option.some.inj hs
    exact h.readable he
  · split at hs
    · obtain rfl := Option.some.inj hs
      exact (h.handle he).of_eq rfl rfl rfl rfl rfl Stage.noConfusion
    · cases hs
  · split at hs
    · next hsyn =>
      obtain rfl := Option.some.inj hs
      refine (h.handle fun _ => not_takesNext_syn hsyn).of_eq rfl rfl rfl ?_ rfl id
      exact recvOut_processTick _ _
    · cases hs
  · cases hs

theorem step_datagram {env : Env} {data : List UInt8}
    (hs : m.step (.datagram env data) = some m') :
    m.stage = .idle ∧ m' = { m.handle env data with stage := .readable } := by
  unfold Managed.step at hs
  cases hstage : m.stage with
  | idle =>
    rw [hstage] at hs
    dsimp only at hs
    split at hs
    · exact ⟨rfl, (Option.some.inj hs).symm⟩
    · cases hs
  | ticked | commands | readable | removed =>
    rw [hstage] at hs
    cases hs

theorem step_readable (hs : m.step .readable = some m') : m' = m.readable := by
  unfold Managed.step at hs
  cases hstage : m.stage with
  | readable =>
    rw [hstage] at hs
    exact (Option.some.inj hs).symm
  | idle | ticked | commands | removed =>
    rw [hstage] at hs
    cases hs

/-- A step that does not meet the condition loses bytes, or puts them behind the end. -/
theorem Kept.broken (h : m.Kept) (he : ¬ m.HandsOver e) (hs : m.step e = some m') :
    ¬ m'.Delivered := by
  intro hdel
  unfold HandsOver at he
  split at he
  · next env data =>
    obtain ⟨hend, hnext⟩ := Classical.not_imp.mp he
    have hnext := Classical.not_not.mp hnext
    obtain ⟨⟨tail, htail⟩, hsame⟩ := recvOut_handlePacket m.ctx.conn data env
    obtain ⟨hstage, rfl⟩ := step_datagram hs
    have hend' : m.ended = true ∨ none ∈ m.ctx.chunks ∨ Stage.readable = .removed :=
      hend.imp_right (Or.imp_right fun hr => absurd (hstage.symm.trans hr) Stage.noConfusion)
    have hwhole : m.got ++ m.pending =
        m.appended ++ (m.ctx.conn.handlePacket data env).recvOut.drop m.ctx.conn.recvOut.length :=
      hdel.whole hend'
    rw [← htail, List.drop_left, ← h.delivered.whole hend] at hwhole
    have hnil : tail = [] := List.append_right_eq_self.mp hwhole.symm
    rw [hnil, List.append_nil] at htail
    exact hsame.mpr hnext htail.symm
  · obtain ⟨hclosed, hleft⟩ := Classical.not_imp.mp he
    obtain rfl := step_readable hs
    rw [readable_closed hclosed] at hdel
    have hkept := h.handedOver m.ctx.processReadableData_spec
    have hpending := pending_finalize { m with ctx := m.ctx.processReadableData }
    have hwhole := hdel.whole (.inr (.inr rfl))
    have hstream := hkept.stream
    dsimp only at hpending hwhole hstream
    rw [hpending] at hwhole
    rw [hwhole] at hstream
    exact hleft (m.last_round.mp (List.append_right_eq_self.mp hstream))
  · exact he trivial

/-- **The reader gets everything, and the end behind it**, in exactly the runs in which no DATA
comes behind the end and the last round leaves nothing behind. -/
theorem delivered_iff (conn : UtpConnection) (es : List ManagedEvent) (m : Managed)
    (hrun : run step (start conn) es = some m) :
    Everywhere step Delivered (start conn) es ↔ Along step HandsOver (start conn) es :=
  everywhere_iff_along (fun _ hm => hm.delivered) (fun _ _ _ hm he hs => hm.step he hs)
    (fun _ _ _ hm he hs => hm.broken he hs) (kept_start conn) hrun

/-- DATA with one byte, the `i`th of the peer. -/
def byteAt (i : Nat) : List UInt8 :=
  datagram stData 0 recvWindow (65533 + UInt16.ofNat i) 1 [7]

/-- A byte and a FIN, which a tick passes on. -/
def byteAndFin : List ManagedEvent :=
  [.datagram still (byteAt 0), .readable, .datagram still (datagram stFin 0 0 65534 1 []),
    .readable, .tick still, .collect, .readable, .recv, .recv]

theorem byteAndFin_delivered : ∃ m, run step (start established) byteAndFin = some m ∧
    Everywhere step Delivered (start established) byteAndFin ∧ m.ended = true ∧ m.got = [7] :=
  ⟨_, rfl, (delivered_iff established byteAndFin _ rfl).mpr (by decide +kernel), rfl, rfl⟩

/-- The reader takes nothing until the channel is full and the peer gives up; then it reads on. -/
def stalledReader : List ManagedEvent :=
  (List.range 257).flatMap (fun i => [.datagram still (byteAt i), .readable]) ++
    [.datagram still (datagram stReset 0 0 0 0 []), .readable] ++ List.replicate 257 .recv

/-- **A reset drops what was acknowledged.**  The last byte is in the receive stream, since the
channel is full, and the manager drops the connection with it. -/
theorem dropped : ∃ m, run step (start established) stalledReader = some m ∧ m.ended = true ∧
    m.got.length = 256 ∧ m.appended.length = 257 ∧ ¬ m.Delivered := by
  have hrun : ((run step (start established) stalledReader).any fun m =>
      decide (m.ended = true ∧ m.got.length = 256 ∧ m.appended.length = 257)) = true := by
    decide +kernel
  obtain ⟨m, hm, hall⟩ := (Option.any_eq_true _ _).mp hrun
  obtain ⟨hended, hgot, happended⟩ := of_decide_eq_true hall
  refine ⟨m, hm, hended, hgot, happended, fun hdel => ?_⟩
  have hpending : m.pending = [] := if_pos hended
  have hlen := congrArg List.length (hdel.whole (.inl hended))
  rw [hpending, List.append_nil, hgot, happended] at hlen
  exact absurd hlen (by decide)

/-- DATA behind the FIN: the reader sees the end in front of it. -/
example : ((run step (start established)
    [.datagram still (datagram stFin 0 0 65533 1 []), .readable, .tick still, .collect, .readable,
      .datagram still (byteAt 1), .readable, .recv]).any fun m =>
    decide (m.ended = true ∧ m.got = [] ∧ m.appended = [7])) = true := by
  decide +kernel

end Managed

end XferRust.Utp
