import XferRust.Utp.Sender

/-! # The incoming stream of one end

`RecvOk snd rcv` says that everything `rcv` acknowledges of `snd`'s numbers has reached its
stream, and that everything it buffers is a later packet of `snd`'s log, less than `2 ^ 15`
numbers ahead.  It survives every act of the sender, every act of the receiver, and the
arrival of a packet near the receiver's acknowledgement, provided the reorder buffer drains
from its least key.
-/
namespace XferRust.Utp
open UtpConnection SerialNumber

/-! ## Serial numbers near the acknowledgement -/

variable {ack isn : UInt16} {r : Nat}

theorem seqLeq_near {n : Nat} (hack : ack + 1 = nth isn r) (hn : Link.Near r n) :
    seqLeq (nth isn n) ack = true ↔ n < r := by
  obtain ⟨hn₁, hn₂⟩ := hn
  have hdiff : nth isn n - ack = nth isn (n + 1) - nth isn r := by
    rw [nth_succ, ← hack]
    grind
  have hint := toInt_sub isn (i := n + 1) (j := r) hn₁ hn₂
  unfold seqLeq
  rw [hdiff, decide_eq_true_iff, Int16.le_iff_toInt_le, hint, Int16.toInt_zero]
  omega

theorem seq_next_iff {n : Nat} (hack : ack + 1 = nth isn r) (hn : Link.Near r n) :
    nth isn n = ack + 1 ↔ n = r := by
  obtain ⟨hn₁, hn₂⟩ := hn
  rw [hack]
  constructor
  · intro h
    exact nth_inj isn (by omega) (by omega) h
  · rintro rfl
    rfl

theorem seqAfter_ahead {i : Nat} (hack : ack + 1 = nth isn r) (hlo : r < i) (hhi : i < r + 32768) :
    seqAfter (nth isn i) (ack + 1) = true := by
  have hint := toInt_sub isn (i := i) (j := r) hhi (by omega)
  unfold seqAfter
  rw [hack, decide_eq_true_iff, Int16.lt_iff_toInt_lt, hint, Int16.toInt_zero]
  omega

/-- The distance the acknowledgement has moved, when it has moved less than a whole round. -/
theorem ack_distance {ack' : UInt16} {r' : Nat} (hack : ack + 1 = nth isn r)
    (hack' : ack' + 1 = nth isn r') (hle : r ≤ r') (hlt : r' - r < 65536) :
    r + (ack' - ack).toNat = r' := by
  have hdiff : ack' - ack = nth isn r' - nth isn r := by
    rw [← hack, ← hack']
    grind
  rw [hdiff, toNat_sub isn hle hlt]
  omega

/-! ## The reorder buffer -/

/-- Entry `e` of a reorder buffer is packet `i` of the log, with `lo ≤ i < hi`. -/
def Ahead (isn : UInt16) (log : List (List UInt8)) (lo hi : Nat) (e : UInt16 × InPacket) : Prop :=
  ∃ i, lo ≤ i ∧ i < hi ∧ e.1 = nth isn i ∧ log[i]? = some e.2.payload

variable {log : List (List UInt8)}

theorem Ahead.mono {log' : List (List UInt8)} {lo lo' hi hi' : Nat} {e : UInt16 × InPacket}
    (h : Ahead isn log lo hi e) (hlo : lo' ≤ lo) (hhi : hi ≤ hi') (hlog : log <+: log') :
    Ahead isn log' lo' hi' e := by
  obtain ⟨i, hi₁, hi₂, hkey, hpay⟩ := h
  refine ⟨i, Nat.le_trans hlo hi₁, Nat.lt_of_lt_of_le hi₂ hhi, hkey, ?_⟩
  obtain ⟨more, rfl⟩ := hlog
  rw [List.getElem?_append_left (List.getElem?_eq_some_iff.mp hpay).1]
  exact hpay

/-- An entry that is not the next packet lies strictly beyond it. -/
theorem Ahead.strict {lo hi : Nat} {e : UInt16 × InPacket} (h : Ahead isn log lo hi e)
    (hne : e.1 ≠ nth isn lo) : Ahead isn log (lo + 1) hi e := by
  obtain ⟨i, hi₁, hi₂, hkey, hpay⟩ := h
  refine ⟨i, ?_, hi₂, hkey, hpay⟩
  rcases Nat.lt_or_eq_of_le hi₁ with hlt | rfl
  · exact hlt
  · exact absurd hkey hne

/-- The stream up to packet `r`, with packet `r` behind it. -/
theorem flatten_take_succ {payload : List UInt8} (h : log[r]? = some payload) :
    (log.take (r + 1)).flatten = (log.take r).flatten ++ payload := by
  rw [List.take_add_one, h]
  simp

/-- In an ascending list whose keys lie above `k`, key `k + 1` can only come first. -/
theorem head_of_succ_mem {k : UInt16} {es : List (UInt16 × InPacket)}
    (hsorted : es.Pairwise fun e f => e.1 < f.1) (habove : ∀ e ∈ es, k < e.1)
    (hmem : k + 1 ∈ es.map Prod.fst) : es.head?.map Prod.fst = some (k + 1) := by
  cases es with
  | nil => cases hmem
  | cons e es =>
    obtain ⟨f, hf, hkey⟩ := List.mem_map.mp hmem
    rcases List.mem_cons.mp hf with rfl | hf
    · exact congrArg some hkey
    · have hlt := (List.pairwise_cons.mp hsorted).1 f hf
      have hk := habove e List.mem_cons_self
      rw [hkey] at hlt
      rw [UInt16.lt_iff_toNat_lt] at hk hlt
      rw [UInt16.toNat_add, UInt16.toNat_one] at hlt
      omega

/-- **Draining.**  When the next packet, if it is buffered, has the least key, the loop
delivers a run of packets in order and leaves only packets strictly beyond the run. -/
theorem drainReorder_spec {hi : Nat} (es : List (UInt16 × InPacket)) (buffered : UInt32)
    {handed out : List UInt8} (hack : ack + 1 = nth isn r) (hr : r ≤ log.length) (hrhi : r ≤ hi)
    (hhi : hi ≤ r + 32768) (hout : handed ++ out = (log.take r).flatten)
    (hsorted : es.Pairwise fun e f => e.1 < f.1) (hahead : ∀ e ∈ es, Ahead isn log r hi e)
    (hfirst : nth isn r ∈ es.map Prod.fst → es.head?.map Prod.fst = some (nth isn r)) :
    ∃ r', r ≤ r' ∧ r' ≤ hi ∧ r' ≤ log.length ∧
      (drainReorder ack out buffered es).1 + 1 = nth isn r' ∧
      handed ++ (drainReorder ack out buffered es).2.1 = (log.take r').flatten ∧
      ∀ e ∈ es.drop (drainReorder ack out buffered es).2.2.2, Ahead isn log (r' + 1) hi e := by
  induction es generalizing r ack out buffered with
  | nil => exact ⟨r, Nat.le_refl r, hrhi, hr, hack, hout, fun e he => by cases he⟩
  | cons e es ih =>
    obtain ⟨key, p⟩ := e
    obtain ⟨habove, hsorted'⟩ := List.pairwise_cons.mp hsorted
    rw [drainReorder]
    by_cases hkey : key = ack + 1
    · simp only [if_pos hkey]
      have hkeyr : key = nth isn r := hkey.trans hack
      -- the entry is packet `r`: its index is within `2 ^ 15` of `r`
      have hpay : log[r]? = some p.payload ∧ r < hi := by
        obtain ⟨i, hi₁, hi₂, hki, hpi⟩ := hahead _ List.mem_cons_self
        have : i = r := nth_inj isn (by omega) (by omega) (hki.symm.trans hkeyr)
        exact ⟨this ▸ hpi, this ▸ hi₂⟩
      have hlen : r + 1 ≤ log.length := (List.getElem?_eq_some_iff.mp hpay.1).1
      have hnext : key + 1 = nth isn (r + 1) := by rw [hkeyr, nth_succ]
      have hout' : handed ++ (out ++ p.payload) = (log.take (r + 1)).flatten := by
        rw [flatten_take_succ hpay.1, ← hout, List.append_assoc]
      have hahead' : ∀ e ∈ es, Ahead isn log (r + 1) hi e := fun e he =>
        (hahead e (List.mem_cons_of_mem _ he)).strict fun heq => by
          have hlt := habove e he
          rw [heq, hkeyr] at hlt
          exact absurd hlt (UInt16.lt_irrefl _)
      have hfirst' : nth isn (r + 1) ∈ es.map Prod.fst →
          es.head?.map Prod.fst = some (nth isn (r + 1)) := by
        rw [← hnext]
        exact head_of_succ_mem hsorted' habove
      obtain ⟨r', h₁, h₂, h₃, h₄, h₅, h₆⟩ :=
        ih (buffered - UInt32.ofNat p.payload.length) hnext hlen hpay.2 (by omega) hout' hsorted'
          hahead' hfirst'
      refine ⟨r', by omega, h₂, h₃, h₄, h₅, ?_⟩
      rw [List.drop_succ_cons]
      exact h₆
    · simp only [if_neg hkey]
      refine ⟨r, Nat.le_refl r, hrhi, hr, hack, hout, fun e he => ?_⟩
      refine (hahead e he).strict fun heq => hkey ?_
      have hhead := hfirst (heq ▸ List.mem_map_of_mem he)
      exact (Option.some.inj hhead).trans hack.symm

/-! ## The receiver's invariant -/

/-- What `rcv` has received of `snd`'s stream. -/
structure RecvOk (snd rcv : Peer) : Prop where
  ack : rcv.conn.ack + 1 = nth snd.isn rcv.rcvd
  stream : rcv.handed ++ rcv.conn.recvOut = (snd.log.take rcv.rcvd).flatten
  reorder : ∀ e ∈ rcv.conn.recvReorder.entries,
    Ahead snd.isn snd.log (rcv.rcvd + 1) (rcv.rcvd + 32768) e
  eof : rcv.conn.eof = true → ∃ f, snd.finAt = some f ∧ f < rcv.rcvd
  bound : rcv.rcvd ≤ snd.log.length ∨ snd.finAt.isSome = true

/-- Everything acknowledged is data, or the end of the stream is known. -/
def EofOk (snd rcv : Peer) : Prop := rcv.rcvd ≤ snd.log.length ∨ rcv.conn.eof = true

/-- An arrival leads from `rcv` to `rcv'`. -/
structure Arrived (snd rcv rcv' : Peer) : Prop where
  ok : RecvOk snd rcv'
  le : rcv.rcvd ≤ rcv'.rcvd
  near : rcv'.rcvd ≤ rcv.rcvd + 32768
  eof : EofOk snd rcv → EofOk snd rcv'

theorem EofOk.of_eq {snd rcv rcv' : Peer} (h : EofOk snd rcv) (hrcvd : rcv'.rcvd = rcv.rcvd)
    (heof : rcv'.conn.eof = rcv.conn.eof) : EofOk snd rcv' := by
  rw [EofOk, hrcvd, heof]
  exact h

namespace RecvOk

variable {snd snd' rcv rcv' : Peer}

/-- The receiver's side is as before. -/
theorem of_view (h : RecvOk snd rcv) (hack : rcv'.conn.ack = rcv.conn.ack)
    (hstream : rcv'.handed ++ rcv'.conn.recvOut = rcv.handed ++ rcv.conn.recvOut)
    (hreorder : rcv'.conn.recvReorder = rcv.conn.recvReorder)
    (heof : rcv'.conn.eof = rcv.conn.eof) (hrcvd : rcv'.rcvd = rcv.rcvd) : RecvOk snd rcv' where
  ack := by rw [hack, hrcvd]; exact h.ack
  stream := by rw [hstream, hrcvd]; exact h.stream
  reorder := by rw [hreorder, hrcvd]; exact h.reorder
  eof := by rw [heof, hrcvd]; exact h.eof
  bound := by rw [hrcvd]; exact h.bound

variable {c : UtpConnection}

theorem of_recvView (h : RecvOk snd rcv) (hc : c.recvView = rcv.conn.recvView) :
    RecvOk snd { rcv with conn := c } :=
  h.of_view (congrArg RecvView.ack hc)
    (congrArg (rcv.handed ++ ·) (congrArg RecvView.recvOut hc))
    (congrArg RecvView.recvReorder hc) (congrArg RecvView.eof hc) rfl

/-- An act of the sender. -/
theorem sender_local (h : RecvOk snd rcv) (hl : Local snd snd') : RecvOk snd' rcv where
  ack := hl.isn ▸ h.ack
  stream := by
    rcases h.bound with hb | hb
    · obtain ⟨more, hmore⟩ := hl.log
      rw [← hmore, List.take_append_of_le_length hb]
      exact h.stream
    · rw [hl.frozen hb]
      exact h.stream
  reorder e he := hl.isn ▸ (h.reorder e he).mono (Nat.le_refl _) (Nat.le_refl _) hl.log
  eof he := by
    obtain ⟨f, hf, hlt⟩ := h.eof he
    exact ⟨f, hl.fin f hf, hlt⟩
  bound := by
    rcases h.bound with hb | hb
    · exact .inl (Nat.le_trans hb hl.log.length_le)
    · obtain ⟨f, hf⟩ := Option.isSome_iff_exists.mp hb
      exact .inr (by rw [hl.fin f hf]; rfl)

/-- An act of the sender that leaves the outgoing history alone. -/
theorem sender_eq (h : RecvOk snd rcv) (hisn : snd'.isn = snd.isn) (hlog : snd'.log = snd.log)
    (hfin : snd'.finAt = snd.finAt) : RecvOk snd' rcv where
  ack := hisn ▸ h.ack
  stream := hlog ▸ h.stream
  reorder := by rw [hisn, hlog]; exact h.reorder
  eof := hfin ▸ h.eof
  bound := by rw [hlog, hfin]; exact h.bound

/-- An act of the receiver that is not a reception. -/
theorem receiver_local (h : RecvOk snd rcv) (hl : Local rcv rcv') : RecvOk snd rcv' :=
  h.of_view hl.ack hl.stream hl.reorder hl.eof hl.rcvd

/-! ### Arrivals -/

/-- The receiver after a call that leads its connection to `c` and its count to `r`. -/
theorem rcvdAfter_eq (h : RecvOk snd rcv) {r : Nat} (hst : rcv.conn.state ≠ .synSent)
    (hc : c.ack + 1 = nth snd.isn r) (hle : rcv.rcvd ≤ r) (hlt : r - rcv.rcvd < 65536) :
    Peer.rcvdAfter rcv.rcvd snd.isn rcv.conn c = r := by
  rw [Peer.rcvdAfter, if_neg hst]
  exact ack_distance h.ack hc hle hlt

variable {hdr : PacketHeader}

/-- A DATA packet in order. -/
theorem onData_next (h : RecvOk snd rcv) {payload : List UInt8}
    (hseq : hdr.seqNr = rcv.conn.ack + 1) (hpay : snd.log[rcv.rcvd]? = some payload)
    (hdrain : hdr.seqNr + 1 ∈ rcv.conn.recvReorder.keys →
      rcv.conn.recvReorder.first?.map Prod.fst = some (hdr.seqNr + 1)) :
    ∃ r, rcv.rcvd ≤ r ∧ r ≤ rcv.rcvd + 32768 ∧ r ≤ snd.log.length ∧
      RecvOk snd { rcv with
        conn := let d := drainReorder hdr.seqNr (rcv.conn.recvOut ++ payload)
                  rcv.conn.recvBuffered rcv.conn.recvReorder.entries
                { rcv.conn with
                  ackPending := true
                  ack := d.1
                  recvOut := d.2.1
                  recvBuffered := d.2.2.1
                  recvReorder := rcv.conn.recvReorder.dropFirst d.2.2.2
                  wantRead := true }
        rcvd := r } := by
  have hnum : hdr.seqNr = nth snd.isn rcv.rcvd := hseq.trans h.ack
  have hnext : hdr.seqNr + 1 = nth snd.isn (rcv.rcvd + 1) := by rw [hnum, nth_succ]
  have hlen : rcv.rcvd + 1 ≤ snd.log.length := (List.getElem?_eq_some_iff.mp hpay).1
  have hout : rcv.handed ++ (rcv.conn.recvOut ++ payload) =
      (snd.log.take (rcv.rcvd + 1)).flatten := by
    rw [flatten_take_succ hpay, ← h.stream, List.append_assoc]
  obtain ⟨r, h₁, h₂, h₃, h₄, h₅, h₆⟩ :=
    drainReorder_spec rcv.conn.recvReorder.entries rcv.conn.recvBuffered hnext hlen (by omega)
      (by omega) hout rcv.conn.recvReorder.sorted h.reorder (hnext ▸ hdrain)
  refine ⟨r, by omega, h₂, h₃, h₄, h₅, fun e he => ?_, fun he => ?_, .inl h₃⟩
  · exact (h₆ e he).mono (Nat.le_refl _) (by dsimp only; omega) (List.prefix_refl _)
  · obtain ⟨f, hf, hlt⟩ := h.eof he
    exact ⟨f, hf, by dsimp only; omega⟩

/-- A DATA packet ahead of its turn is buffered. -/
theorem onData_ahead (h : RecvOk snd rcv) {n : Nat} {seq : UInt16} {payload : List UInt8}
    {buffered : UInt32} (hseq : seq = nth snd.isn n) (hpay : snd.log[n]? = some payload)
    (hlo : rcv.rcvd < n) (hhi : n < rcv.rcvd + 32768) :
    RecvOk snd { rcv with
      conn := { rcv.conn with
        ackPending := true
        recvReorder := (rcv.conn.recvReorder.erase seq).insert seq ⟨payload⟩
        recvBuffered := buffered
        wantRead := true } } := by
  refine ⟨h.ack, h.stream, fun e he => ?_, h.eof, h.bound⟩
  rcases SortedMap.mem_of_mem_insert he with rfl | he
  · exact ⟨n, hlo, hhi, hseq, hpay⟩
  · exact h.reorder e (SortedMap.mem_erase.mp he).1

/-- An arrival that changes nothing of the incoming stream. -/
theorem arrived_of_recvView (h : RecvOk snd rcv) (hc : c.recvView = rcv.conn.recvView) :
    ∃ r, Arrived snd rcv { rcv with conn := c, rcvd := r } :=
  ⟨rcv.rcvd, h.of_recvView hc, Nat.le_refl _, Nat.le_add_right _ _,
    fun he => he.imp_right fun he => (congrArg RecvView.eof hc).trans he⟩

/-- **A DATA packet near the acknowledgement** keeps the invariant. -/
theorem onData (h : RecvOk snd rcv) {payload : List UInt8}
    (hnear : Link.NearData snd rcv.rcvd hdr.seqNr payload)
    (hdrain : hdr.seqNr = rcv.conn.ack + 1 → payload ≠ [] →
      hdr.seqNr + 1 ∈ rcv.conn.recvReorder.keys →
        rcv.conn.recvReorder.first?.map Prod.fst = some (hdr.seqNr + 1)) :
    ∃ r, Arrived snd rcv { rcv with conn := rcv.conn.onData hdr payload, rcvd := r } := by
  obtain ⟨n, -, hpay, hseq, hn⟩ := hnear
  unfold UtpConnection.onData
  dsimp only
  by_cases hempty : payload.isEmpty = true
  · rw [if_pos hempty]
    exact h.arrived_of_recvView rfl
  · rw [if_neg hempty]
    by_cases hold : seqLeq hdr.seqNr rcv.conn.ack = true
    · rw [if_pos hold]
      exact h.arrived_of_recvView rfl
    · rw [if_neg hold]
      have hge : rcv.rcvd ≤ n := by
        rw [hseq, seqLeq_near h.ack hn] at hold
        omega
      by_cases hnext : hdr.seqNr = rcv.conn.ack + 1
      · rw [if_pos hnext]
        have hnr : n = rcv.rcvd := (seq_next_iff h.ack hn).mp (hseq ▸ hnext)
        obtain ⟨r, h₁, h₂, h₃, hr⟩ := h.onData_next hnext (hnr ▸ hpay)
          (hdrain hnext (mt List.isEmpty_iff.mpr hempty))
        exact ⟨r, hr, h₁, h₂, fun _ => .inl h₃⟩
      · rw [if_neg hnext]
        have hgt : rcv.rcvd < n := by
          refine Nat.lt_of_le_of_ne hge fun heq => hnext ?_
          rw [hseq]
          exact (seq_next_iff h.ack hn).mpr heq.symm
        split
        · exact ⟨rcv.rcvd, h.onData_ahead hseq hpay hgt (by have := hn.1; omega), Nat.le_refl _,
            Nat.le_add_right _ _, id⟩
        · exact h.arrived_of_recvView rfl

/-- **The FIN**, behind all data, keeps the invariant. -/
theorem onFin (h : RecvOk snd rcv) (hlast : FinLast snd) {f : Nat} (hf : snd.finAt = some f)
    (hseq : hdr.seqNr = nth snd.isn f) (hn : Link.Near rcv.rcvd f) :
    ∃ r, Arrived snd rcv { rcv with conn := rcv.conn.onFin hdr, rcvd := r } := by
  have hlen := hlast f hf
  unfold UtpConnection.onFin
  dsimp only
  split
  · rename_i hc
    have hfr : f = rcv.rcvd := (seq_next_iff h.ack hn).mp (hseq ▸ hc.1)
    refine ⟨rcv.rcvd + 1, ⟨?_, ?_, ?_, ?_, ?_⟩, Nat.le_add_right _ _, by dsimp only; omega,
      fun _ => .inr rfl⟩
    · dsimp only
      rw [hseq, hfr, nth_succ]
    · dsimp only
      rw [List.take_of_length_le (by omega), h.stream, List.take_of_length_le (by omega)]
    · intro e he
      obtain ⟨i, hi, -, -, hpay⟩ := h.reorder e he
      have := (List.getElem?_eq_some_iff.mp hpay).1
      omega
    · exact fun _ => ⟨f, hf, by dsimp only; omega⟩
    · exact .inr (by rw [hf]; rfl)
  · exact h.arrived_of_recvView rfl

/-- A call that leaves the incoming stream alone comes before the arrival. -/
theorem arrived_after (hc : c.recvView = rcv.conn.recvView)
    (h : Arrived snd { rcv with conn := c } rcv') : Arrived snd rcv rcv' :=
  ⟨h.ok, h.le, h.near, fun he => h.eof (he.of_eq rfl (congrArg RecvView.eof hc))⟩

theorem recvView_onFirstData {s : UtpConnection} (hst : s.state ≠ .synSent) (hdr : PacketHeader) :
    (s.onFirstData hdr).recvView = s.recvView := by
  unfold onFirstData
  split
  · rfl
  · rfl

/-- The arm of `handle_packet` for a datagram the sender has sent. -/
theorem received (h : RecvOk snd rcv) (hst : rcv.conn.state ≠ .synSent) (hlast : FinLast snd)
    {pkt : List UInt8} (hsent : Sent snd pkt) {exts : List Extension} {off : Nat}
    (hp : parsePacket pkt = some (hdr, exts, off))
    (hdata : hdr.type_ = stData → Link.NearData snd rcv.rcvd hdr.seqNr (pkt.drop off))
    (hfin : hdr.type_ = stFin → ∀ f ∈ snd.finAt, Link.Near rcv.rcvd f)
    (hdrain : hdr.type_ = stData → hdr.seqNr = rcv.conn.ack + 1 → pkt.drop off ≠ [] →
      hdr.seqNr + 1 ∈ rcv.conn.recvReorder.keys →
        rcv.conn.recvReorder.first?.map Prod.fst = some (hdr.seqNr + 1)) :
    ∃ r, Arrived snd rcv { rcv with conn := rcv.conn.received hdr (pkt.drop off), rcvd := r } := by
  have hfirst := recvView_onFirstData hst hdr
  have h₁ := h.of_recvView hfirst
  unfold UtpConnection.received
  split
  · rw [onSynAck, if_neg hst]
    exact h.arrived_of_recvView rfl
  · split
    · rename_i ht
      have hack : (rcv.conn.onFirstData hdr).ack = rcv.conn.ack := congrArg RecvView.ack hfirst
      have hbuf : (rcv.conn.onFirstData hdr).recvReorder = rcv.conn.recvReorder :=
        congrArg RecvView.recvReorder hfirst
      obtain ⟨r, hr⟩ := h₁.onData (hdata ht) (by rw [hack, hbuf]; exact hdrain ht)
      exact ⟨r, arrived_after hfirst hr⟩
    · split
      · rename_i ht
        obtain ⟨f, hf, hseq⟩ : ∃ f, snd.finAt = some f ∧ hdr.seqNr = nth snd.isn f := by
          cases hsent with
          | fin f hf hq => exact ⟨f, hf, (hq.parsed hp).2.1⟩
          | data i payload hi hq => exact absurd (ht.symm.trans (hq.parsed hp).1) (by decide)
          | state j hj hq => exact absurd (ht.symm.trans (hq.parsed hp).1) (by decide)
          | syn n hq => exact absurd (ht.symm.trans (hq.parsed hp).1) (by decide)
        obtain ⟨r, hr⟩ := h₁.onFin hlast hf hseq (hfin ht f hf)
        exact ⟨r, arrived_after hfirst hr⟩
      · exact h.arrived_of_recvView rfl

/-- The receiver as a reception leaves it, when the connection it leads to is `c`. -/
theorem arrived_quiet {c' : UtpConnection} {r : Nat}
    (h : Arrived snd rcv { rcv with conn := c, rcvd := r }) (hq : Quiet c c') :
    Arrived snd rcv { rcv with conn := c', rcvd := r } :=
  ⟨h.ok.of_recvView hq.recv, h.le, h.near, fun he => (h.eof he).of_eq rfl hq.eof⟩

/-- **Reception.**  A datagram of the sender keeps the invariant if it lies near the
acknowledgement and the reorder buffer drains from its least key. -/
theorem receive (h : RecvOk snd rcv) (hst : rcv.conn.state ≠ .synSent) (hlast : FinLast snd)
    {pkt : List UInt8} {env : Env} (hsent : Sent snd pkt)
    (hdata : ∀ hdr exts off, parsePacket pkt = some (hdr, exts, off) →
      hdr.type_ = stData → Link.NearData snd rcv.rcvd hdr.seqNr (pkt.drop off))
    (hfin : ∀ hdr exts off, parsePacket pkt = some (hdr, exts, off) →
      hdr.type_ = stFin → ∀ f ∈ snd.finAt, Link.Near rcv.rcvd f)
    (hdrain : ∀ hdr exts off, parsePacket pkt = some (hdr, exts, off) →
      hdr.type_ = stData → hdr.seqNr = rcv.conn.ack + 1 → pkt.drop off ≠ [] →
        hdr.seqNr + 1 ∈ rcv.conn.recvReorder.keys →
          rcv.conn.recvReorder.first?.map Prod.fst = some (hdr.seqNr + 1)) :
    Arrived snd rcv (rcv.receive snd.isn env pkt) := by
  obtain ⟨r, hr⟩ : ∃ r, Arrived snd rcv
      { rcv with conn := rcv.conn.handlePacket pkt env, rcvd := r } := by
    obtain ⟨t, seq, payload, ⟨hdr, exts, off, hp, rfl, -, -⟩, htype⟩ := hsent.carries
    have harr := quiet_onArrival rcv.conn hdr env
    have hst₁ : (rcv.conn.onArrival hdr env).state ≠ .synSent := by
      rcases harr.state with hs | hs
      · rw [hs]; exact hst
      · rw [hs]; decide
    have h₁ := h.of_recvView harr.recv
    obtain ⟨r, hr⟩ := h₁.received hst₁ hlast hsent hp (hdata _ _ _ hp) (hfin _ _ _ hp) (by
      dsimp only
      rw [harr.ack, harr.recvReorder]
      exact hdrain _ _ _ hp)
    exact ⟨r, arrived_quiet (arrived_after harr.recv hr) (quiet_handlePacket hp htype env)⟩
  have hcount := h.rcvdAfter_eq hst hr.ok.ack hr.le (by have := hr.near; dsimp only at *; omega)
  have he : rcv.receive snd.isn env pkt =
      { rcv with conn := rcv.conn.handlePacket pkt env, rcvd := r } := by
    unfold Peer.receive
    dsimp only at hcount ⊢
    rw [hcount]
  exact he ▸ hr

end RecvOk

end XferRust.Utp
