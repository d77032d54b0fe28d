import XferRust.Playlist.Ts

/-! # Putting PES packets together

What a segment carries for each PID, read off its packets alone, and what `reassemble_pes` makes of
it.  The source knows one PES that it adds to, the one that was begun last; a packet that carries on
another one is left out.
-/
namespace XferRust.Playlist
open Guarded SortedMap

/-! ## What a packet carries -/

/-- The fields of a whole packet. -/
def fieldsOf (pkt : List UInt8) : Fields where
  pid := pidOf (pkt.getD 1 0) (pkt.getD 2 0)
  pusi := (pkt.getD 1 0).toNat / 64 % 2 = 1
  afc := (pkt.getD 3 0).toNat / 16 % 4

/-- Where the adaptation field of a packet ends. -/
def payloadOffset (pkt : List UInt8) : Nat :=
  if 2 ≤ (fieldsOf pkt).afc then 5 + (pkt.getD 4 0).toNat else 4

/-- The payload of a whole packet. -/
def payloadOf (pkt : List UInt8) : List UInt8 :=
  if (fieldsOf pkt).afc % 2 = 1 then pkt.drop (payloadOffset pkt) else []

/-- The adaptation field of a whole packet, behind its length. -/
def afOf (pkt : List UInt8) : List UInt8 :=
  if 2 ≤ (fieldsOf pkt).afc then (pkt.drop 5).take (pkt.getD 4 0).toNat else []

/-- A packet as a piece of the stream on its PID. -/
def pieceOf (pkt : List UInt8) : Demux.Piece Nat UInt8 where
  key := (fieldsOf pkt).pid
  start := (fieldsOf pkt).pusi
  items := payloadOf pkt

/-- The packet belongs to an elementary stream. -/
def Elementary (streams : Streams) (pkt : List UInt8) : Prop :=
  (lookup (fieldsOf pkt).pid streams).isSome

instance (streams : Streams) : DecidablePred (Elementary streams) := fun _ =>
  inferInstanceAs (Decidable (_ = true))

/-- What the packets carry for the elementary streams. -/
def pieces (streams : Streams) (pkts : List (List UInt8)) : List (Demux.Piece Nat UInt8) :=
  (pkts.filter (Elementary streams ·)).map pieceOf

/-- The packet that begins a PES holds the whole header of it. -/
def WholeHeader (pkt : List UInt8) : Prop :=
  ∃ start, pesPayloadStart (payloadOf pkt) = .ok (some start)

/-- No header of an elementary stream goes over two packets. -/
def HeadersWhole (streams : Streams) (pkts : List (List UInt8)) : Prop :=
  ∀ pkt ∈ pkts, Elementary streams pkt → (fieldsOf pkt).pusi → WholeHeader pkt

theorem index_getD {xs : List UInt8} {i : Nat} (h : i < xs.length) :
    (index xs i : Guarded String UInt8) = .ok (xs.getD i 0) := by
  rw [index_ok (List.getElem?_eq_getElem h), List.getD_eq_getElem?_getD, List.getElem?_eq_getElem h]
  rfl

section Packet
variable {pkt : List UInt8} (hlen : pkt.length = tsPacket)
include hlen

theorem readFields_eq : readFields pkt = .ok (fieldsOf pkt) := by
  rw [tsPacket] at hlen
  rw [readFields, index_getD (by omega), index_getD (by omega), index_getD (by omega)]
  rfl

theorem readPayload_eq : readPayload pkt (fieldsOf pkt).afc = .ok (payloadOf pkt) := by
  have hbehind : (if (fieldsOf pkt).afc % 2 = 1 ∧ payloadOffset pkt < tsPacket then
      sliceFrom pkt (payloadOffset pkt) else .ok [] : Guarded String (List UInt8)) =
        .ok (payloadOf pkt) := by
    rw [payloadOf]
    by_cases hodd : (fieldsOf pkt).afc % 2 = 1
    · rw [if_pos hodd]
      by_cases hin : payloadOffset pkt < tsPacket
      · rw [if_pos ⟨hodd, hin⟩, sliceFrom_ok (by omega)]
      · rw [if_neg fun h => hin h.2, List.drop_eq_nil_of_le (by omega)]
    · rw [if_neg hodd, if_neg fun h => hodd h.1]
  rw [payloadOffset] at hbehind
  rw [readPayload]
  by_cases h : 2 ≤ (fieldsOf pkt).afc
  · rw [if_pos h] at hbehind ⊢
    rw [index_getD (by rw [hlen, tsPacket]; omega)]
    exact hbehind
  · rw [if_neg h] at hbehind ⊢
    exact hbehind

theorem readAf_eq : readAf pkt (fieldsOf pkt).afc = .ok (afOf pkt) := by
  rw [readAf, afOf]
  by_cases h : 2 ≤ (fieldsOf pkt).afc
  · rw [if_pos h, if_pos h, index_getD (by rw [hlen, tsPacket]; omega)]
    show (if 0 < (pkt.getD 4 0).toNat then
      slice pkt 5 (min (5 + (pkt.getD 4 0).toNat) tsPacket) else .ok [] :
        Guarded String (List UInt8)) = _
    by_cases hpos : 0 < (pkt.getD 4 0).toNat
    · have h188 : tsPacket = 188 := rfl
      rw [if_pos hpos, slice_ok (by omega) (by omega)]
      refine congrArg Except.ok ?_
      rw [List.take_eq_take_iff, List.length_drop]
      omega
    · rw [if_neg hpos, Nat.eq_zero_of_not_pos hpos]
      rfl
  · rw [if_neg h, if_neg h]

end Packet

/-- What `pes_payload_start` finds lies within the packet. -/
theorem pesPayloadStart_ensures (pes : List UInt8) :
    Ensures (pesPayloadStart pes) fun start? => ∀ start ∈ start?, start ≤ pes.length := by
  rw [pesPayloadStart]
  refine ensures_ite (fun _ => ensures_ok fun _ h => nomatch h) fun h6 => ?_
  refine (ensures_index (by omega)).bind fun b0 _ => ?_
  refine (ensures_index (by omega)).bind fun b1 _ => ?_
  refine (ensures_index (by omega)).bind fun b2 _ => ?_
  refine ensures_ite (fun _ => ensures_ok fun _ h => nomatch h) fun _ => ?_
  refine (ensures_index (by omega)).bind fun streamId _ => ?_
  refine ensures_ite (fun _ => ensures_ok fun start h => ?_) fun _ => ?_
  · obtain rfl := Option.some.inj h
    omega
  refine ensures_ite (fun _ => ensures_ok fun _ h => nomatch h) fun h9 => ?_
  refine (ensures_index (by omega)).bind fun headerDataLen _ => ?_
  refine ensures_ite (fun _ => ensures_ok fun _ h => nomatch h) fun hstart => ensures_ok fun start h => ?_
  obtain rfl := Option.some.inj h
  omega

/-! ## What the loop does with one packet -/

/-- The PES that begins in a packet whose header ends at `start`. -/
def pesAt (pkt : List UInt8) (start : Nat) : Pes where
  pid := (fieldsOf pkt).pid
  header := (payloadOf pkt).take start
  payload := (payloadOf pkt).drop start
  firstAf := afOf pkt

/-- The open PES with a packet that begins nothing: it is added if it has the same PID. -/
def carryOn (pes : Pes) (pkt : List UInt8) : Pes :=
  if pes.pid = (fieldsOf pkt).pid then { pes with payload := pes.payload ++ payloadOf pkt }
  else pes

section Step
variable {streams : Streams} {pkt : List UInt8} {pkts : List (List UInt8)}
  (hlen : pkt.length = tsPacket) {out : List Pes} {cur : Option Nat}
include hlen

theorem reassembleLoop_foreign (h : ¬Elementary streams pkt) :
    reassembleLoop streams (pkt :: pkts) out cur = reassembleLoop streams pkts out cur := by
  have hnone : (lookup (fieldsOf pkt).pid streams).isNone = true := by
    rw [← Option.not_isSome]
    exact Bool.not_eq_true' _ ▸ Bool.eq_false_iff.mpr h
  rw [reassembleLoop, readFields_eq hlen]
  exact if_pos hnone

/-- A packet of an elementary stream, once its parts have been read. -/
theorem reassembleLoop_elementary (h : Elementary streams pkt) :
    reassembleLoop streams (pkt :: pkts) out cur =
      if (fieldsOf pkt).pusi then do
        match ← pesPayloadStart (payloadOf pkt) with
        | none =>
          let pid := (fieldsOf pkt).pid
          fail s!"SAMPLE-AES(TS) 的 PID {pid} 上 PES 头不完整（跨包）"
        | some start => do
          let header ← slice (payloadOf pkt) 0 start
          let rest ← sliceFrom (payloadOf pkt) start
          reassembleLoop streams pkts
            (out ++ [{ pid := (fieldsOf pkt).pid, header, payload := rest, firstAf := afOf pkt }])
            (some out.length)
      else
        (match cur with
        | none => reassembleLoop streams pkts out cur
        | some i => do
          let pes ← index out i
          if pes.pid = (fieldsOf pkt).pid then
            reassembleLoop streams pkts
              (out.set i { pes with payload := pes.payload ++ payloadOf pkt }) cur
          else reassembleLoop streams pkts out cur) := by
  have hsome : ¬(lookup (fieldsOf pkt).pid streams).isNone = true := by
    rw [← Option.not_isSome, h]
    decide
  rw [reassembleLoop, readFields_eq hlen]
  show (if (lookup (fieldsOf pkt).pid streams).isNone = true then _ else _) = _
  rw [if_neg hsome, readAf_eq hlen, readPayload_eq hlen]
  rfl

theorem reassembleLoop_start (h : Elementary streams pkt) (hs : (fieldsOf pkt).pusi = true)
    {start : Nat} (hstart : pesPayloadStart (payloadOf pkt) = .ok (some start)) :
    reassembleLoop streams (pkt :: pkts) out cur =
      reassembleLoop streams pkts (out ++ [pesAt pkt start]) (some out.length) := by
  have hle : start ≤ (payloadOf pkt).length :=
    (pesPayloadStart_ensures (payloadOf pkt)).of_ok hstart start rfl
  rw [reassembleLoop_elementary hlen h, if_pos hs, hstart]
  show (do
    let header ← slice (payloadOf pkt) 0 start
    let rest ← sliceFrom (payloadOf pkt) start
    reassembleLoop streams pkts (out ++ [Pes.mk (fieldsOf pkt).pid header rest (afOf pkt)])
      (some out.length)) = _
  rw [slice_ok (Nat.zero_le _) hle, sliceFrom_ok hle]
  rfl

theorem reassembleLoop_headless (h : Elementary streams pkt) (hs : (fieldsOf pkt).pusi = true)
    (hhead : ¬WholeHeader pkt) {out' : List Pes} :
    reassembleLoop streams (pkt :: pkts) out cur ≠ .ok out' := by
  rw [reassembleLoop_elementary hlen h, if_pos hs]
  match hstart : pesPayloadStart (payloadOf pkt) with
  | .ok (some start) => exact absurd ⟨start, hstart⟩ hhead
  | .ok none => exact nofun
  | .error _ => exact nofun

/-- A packet that begins nothing, before any PES has begun. -/
theorem reassembleLoop_early (h : Elementary streams pkt) (hs : ¬(fieldsOf pkt).pusi = true) :
    reassembleLoop streams (pkt :: pkts) out none = reassembleLoop streams pkts out none := by
  rw [reassembleLoop_elementary hlen h, if_neg hs]

/-- A packet that begins nothing is taken for the last PES. -/
theorem reassembleLoop_carry (h : Elementary streams pkt) (hs : ¬(fieldsOf pkt).pusi = true)
    (pes : Pes) :
    reassembleLoop streams (pkt :: pkts) (out ++ [pes]) (some out.length) =
      reassembleLoop streams pkts (out ++ [carryOn pes pkt]) (some out.length) := by
  have hlast : (out ++ [pes])[out.length]? = some pes := List.getElem?_concat_length
  rw [reassembleLoop_elementary hlen h, if_neg hs]
  show (do
    let pes ← index (out ++ [pes]) out.length
    _) = _
  rw [index_ok hlast]
  show (if pes.pid = (fieldsOf pkt).pid then _ else _) = _
  rw [carryOn]
  by_cases hpid : pes.pid = (fieldsOf pkt).pid
  · rw [if_pos hpid, if_pos hpid, List.set_append_right _ _ (Nat.le_refl _), Nat.sub_self]
    rfl
  · rw [if_neg hpid, if_neg hpid]

end Step

/-! ## What the loop makes of all packets -/

/-- A PES as a unit of the stream on its PID. -/
def unitOf (pes : Pes) : Nat × List UInt8 := (pes.pid, pes.header ++ pes.payload)

theorem unitOf_pesAt (pkt : List UInt8) (start : Nat) :
    unitOf (pesAt pkt start) = ((fieldsOf pkt).pid, payloadOf pkt) :=
  congrArg (Prod.mk _) (List.take_append_drop start (payloadOf pkt))

theorem unitOf_carryOn (pes : Pes) (pkt : List UInt8) :
    unitOf (carryOn pes pkt) =
      if (unitOf pes).1 = (fieldsOf pkt).pid then
        ((unitOf pes).1, (unitOf pes).2 ++ payloadOf pkt) else unitOf pes := by
  rw [carryOn]
  by_cases h : pes.pid = (fieldsOf pkt).pid
  · rw [if_pos h, if_pos (show (unitOf pes).1 = _ from h)]
    exact congrArg (Prod.mk pes.pid) (List.append_assoc _ _ _).symm
  · rw [if_neg h, if_neg (show ¬(unitOf pes).1 = _ from h)]

section Run
variable {streams : Streams}

theorem pieces_elementary {pkt : List UInt8} (h : Elementary streams pkt) (pkts : List (List UInt8)) :
    pieces streams (pkt :: pkts) = pieceOf pkt :: pieces streams pkts := by
  rw [pieces, List.filter_cons, if_pos (decide_eq_true h)]
  rfl

theorem pieces_foreign {pkt : List UInt8} (h : ¬Elementary streams pkt) (pkts : List (List UInt8)) :
    pieces streams (pkt :: pkts) = pieces streams pkts := by
  rw [pieces, List.filter_cons, if_neg fun hd => h (of_decide_eq_true hd)]
  rfl

variable {pkts : List (List UInt8)}

/-- **What is made of the packets behind an open PES.** -/
theorem reassembleLoop_open (hlen : ∀ pkt ∈ pkts, pkt.length = tsPacket)
    (hwhole : HeadersWhole streams pkts) (out : List Pes) (pes : Pes) :
    ∃ out', reassembleLoop streams pkts (out ++ [pes]) (some out.length) = .ok out' ∧
      out'.map unitOf = out.map unitOf ++
        Demux.assembleOpen (unitOf pes) (pieces streams pkts) := by
  induction pkts generalizing out pes with
  | nil =>
    refine ⟨_, rfl, ?_⟩
    rw [List.map_append]
    exact congrArg _ (Demux.assembleOpen_nil (unitOf pes)).symm
  | cons pkt pkts ih =>
    obtain ⟨hpkt, hlen⟩ := List.forall_mem_cons.mp hlen
    obtain ⟨hhead, hwhole⟩ := List.forall_mem_cons.mp hwhole
    by_cases he : Elementary streams pkt
    · rw [pieces_elementary he]
      by_cases hs : (fieldsOf pkt).pusi = true
      · obtain ⟨start, hstart⟩ := hhead he hs
        obtain ⟨out', hrun, hunits⟩ := ih hlen hwhole (out ++ [pes]) (pesAt pkt start)
        refine ⟨out', (reassembleLoop_start hpkt he hs hstart).trans hrun, hunits.trans ?_⟩
        rw [Demux.assembleOpen_cons_start (unitOf pes) _ hs, unitOf_pesAt, List.map_append,
          List.append_assoc]
        rfl
      · obtain ⟨out', hrun, hunits⟩ := ih hlen hwhole out (carryOn pes pkt)
        refine ⟨out', (reassembleLoop_carry hpkt he hs pes).trans hrun, hunits.trans ?_⟩
        rw [Demux.assembleOpen_cons_carry (unitOf pes) _ hs, unitOf_carryOn]
        rfl
    · rw [pieces_foreign he, reassembleLoop_foreign hpkt he]
      exact ih hlen hwhole out pes

/-- What is made of the packets before any PES has begun. -/
theorem reassembleLoop_closed (hlen : ∀ pkt ∈ pkts, pkt.length = tsPacket)
    (hwhole : HeadersWhole streams pkts) :
    ∃ out', reassembleLoop streams pkts [] none = .ok out' ∧
      out'.map unitOf = Demux.assemble (pieces streams pkts) := by
  induction pkts with
  | nil => exact ⟨[], rfl, rfl⟩
  | cons pkt pkts ih =>
    obtain ⟨hpkt, hlen⟩ := List.forall_mem_cons.mp hlen
    obtain ⟨hhead, hwhole⟩ := List.forall_mem_cons.mp hwhole
    by_cases he : Elementary streams pkt
    · rw [pieces_elementary he]
      by_cases hs : (fieldsOf pkt).pusi = true
      · obtain ⟨start, hstart⟩ := hhead he hs
        obtain ⟨out', hrun, hunits⟩ := reassembleLoop_open hlen hwhole [] (pesAt pkt start)
        refine ⟨out', (reassembleLoop_start hpkt he hs hstart).trans hrun, hunits.trans ?_⟩
        rw [Demux.assemble_cons_start _ hs, unitOf_pesAt]
        rfl
      · rw [reassembleLoop_early hpkt he hs, Demux.assemble_cons_carry _ hs]
        exact ih hlen hwhole
    · rw [pieces_foreign he, reassembleLoop_foreign hpkt he]
      exact ih hlen hwhole

/-- A header that goes over two packets is refused, whatever has been put together. -/
theorem headersWhole_of_run (hlen : ∀ pkt ∈ pkts, pkt.length = tsPacket) {out out' : List Pes}
    {cur : Option Nat} (hcur : cur = none ∨ ∃ front pes, out = front ++ [pes] ∧ cur = front.length)
    (hrun : reassembleLoop streams pkts out cur = .ok out') : HeadersWhole streams pkts := by
  induction pkts generalizing out cur with
  | nil => exact fun _ h => (List.not_mem_nil h).elim
  | cons pkt pkts ih =>
    obtain ⟨hpkt, hlen⟩ := List.forall_mem_cons.mp hlen
    refine List.forall_mem_cons.mpr ?_
    by_cases he : Elementary streams pkt
    · by_cases hs : (fieldsOf pkt).pusi = true
      · by_cases hhead : WholeHeader pkt
        · obtain ⟨start, hstart⟩ := hhead
          rw [reassembleLoop_start hpkt he hs hstart] at hrun
          exact ⟨fun _ _ => ⟨start, hstart⟩, ih hlen (.inr ⟨out, _, rfl, rfl⟩) hrun⟩
        · exact absurd hrun (reassembleLoop_headless hpkt he hs hhead)
      · refine ⟨fun _ h => absurd h hs, ?_⟩
        rcases hcur with rfl | ⟨front, pes, rfl, rfl⟩
        · rw [reassembleLoop_early hpkt he hs] at hrun
          exact ih hlen (.inl rfl) hrun
        · rw [reassembleLoop_carry hpkt he hs] at hrun
          exact ih hlen (.inr ⟨front, _, rfl, rfl⟩) hrun
    · rw [reassembleLoop_foreign hpkt he] at hrun
      exact ⟨fun h => absurd h he, ih hlen hcur hrun⟩

theorem headersWhole_of_closed (hlen : ∀ pkt ∈ pkts, pkt.length = tsPacket) {out : List Pes}
    (hrun : reassembleLoop streams pkts [] none = .ok out) : HeadersWhole streams pkts :=
  headersWhole_of_run hlen (.inl rfl) hrun

end Run

/-! ## The streams of a segment -/

/-- The units of an elementary stream do not depend on the packets of other PIDs. -/
theorem units_pieces {streams : Streams} {pid : Nat} (h : (lookup pid streams).isSome)
    (pkts : List (List UInt8)) :
    Demux.units pid (pieces streams pkts) = Demux.units pid (pkts.map pieceOf) := by
  have hkey : ((pieces streams pkts).filter fun p => p.key = pid) =
      (pkts.map pieceOf).filter fun p => p.key = pid := by
    rw [pieces, List.filter_map, List.filter_map, List.filter_filter]
    refine congrArg _ (List.filter_congr fun pkt _ => ?_)
    show (decide ((fieldsOf pkt).pid = pid) && decide (Elementary streams pkt)) =
      decide ((fieldsOf pkt).pid = pid)
    by_cases hpid : (fieldsOf pkt).pid = pid
    · rw [decide_eq_true (show Elementary streams pkt by rw [Elementary, hpid]; exact h),
        Bool.and_true]
    · rw [decide_eq_false hpid, Bool.false_and]
  rw [Demux.units, hkey]
  rfl

/-- The reassembly gives back, for every elementary PID, what its packets carry from its first
payload unit start on, one PES for each start. -/
def KeepsStreams (data : List UInt8) (streams : Streams) : Prop :=
  ∃ out, reassemblePes data streams = .ok out ∧ ∀ pid, (lookup pid streams).isSome →
    ((out.filter fun pes => pes.pid = pid).map fun pes => pes.header ++ pes.payload) =
      Demux.units pid ((Records.chunksExact tsPacket data).map pieceOf)

theorem assembled_eq {out : List Pes} {streams : Streams} {pkts : List (List UInt8)}
    (h : out.map unitOf = Demux.assemble (pieces streams pkts)) (pid : Nat) :
    ((out.filter fun pes => pes.pid = pid).map fun pes => pes.header ++ pes.payload) =
      Demux.assembled pid (pieces streams pkts) := by
  rw [Demux.assembled, ← h, List.filter_map, List.map_map]
  rfl

/-- **When every stream is kept**: no header of a PES goes over two packets, and no packet carries
on a PES after another one, of whatever elementary PID, was begun. -/
theorem keepsStreams_iff (data : List UInt8) (streams : Streams) :
    KeepsStreams data streams ↔
      HeadersWhole streams (Records.chunksExact tsPacket data) ∧
        ∀ pid, (lookup pid streams).isSome →
          Demux.Timely pid (pieces streams (Records.chunksExact tsPacket data)) := by
  have hlen : ∀ pkt ∈ Records.chunksExact tsPacket data, pkt.length = tsPacket :=
    fun _ => Records.length_of_mem_chunksExact
  constructor
  · rintro ⟨out, hrun, hkeep⟩
    have hwhole := headersWhole_of_closed hlen hrun
    refine ⟨hwhole, fun pid hpid => Demux.assembled_eq_units_iff.mp ?_⟩
    obtain ⟨out', hrun', hunits⟩ := reassembleLoop_closed hlen hwhole
    obtain rfl : out' = out := Except.ok.inj (hrun'.symm.trans hrun)
    rw [← assembled_eq hunits pid, hkeep pid hpid, units_pieces hpid]
  · rintro ⟨hwhole, htimely⟩
    obtain ⟨out, hrun, hunits⟩ := reassembleLoop_closed hlen hwhole
    refine ⟨out, hrun, fun pid hpid => ?_⟩
    rw [assembled_eq hunits pid, Demux.assembled_eq_units_iff.mpr (htimely pid hpid),
      units_pieces hpid]

/-- The first packet of a picture, on PID 256. -/
def pictureStart : List UInt8 :=
  [0x47, 0x41, 0x00, 0x10, 0, 0, 1, 0xE0, 0, 0, 0x80, 0, 0] ++ List.replicate 175 0xAA

/-- A packet of sound, on PID 257. -/
def soundStart : List UInt8 :=
  [0x47, 0x41, 0x01, 0x10, 0, 0, 1, 0xC0, 0, 0, 0x80, 0, 0] ++ List.replicate 175 0x55

/-- The second packet of the picture. -/
def pictureRest : List UInt8 := [0x47, 0x01, 0x00, 0x11] ++ List.replicate 184 0xBB

/-- The sound comes between the two packets of the picture, and the second one is lost. -/
theorem interleaved_not_kept :
    (∀ pkt ∈ [pictureStart, soundStart, pictureRest], pkt.length = tsPacket ∧
      pkt.head? = some tsSync ∧ payloadOffset pkt ≤ tsPacket) ∧
    ¬KeepsStreams (pictureStart ++ soundStart ++ pictureRest) [(256, 0x1B), (257, 0x0F)] := by
  refine ⟨by decide +kernel, ?_⟩
  rintro ⟨out, hrun, hkeep⟩
  have hout : (reassemblePes (pictureStart ++ soundStart ++ pictureRest)
      [(256, 0x1B), (257, 0x0F)]).toOption = some [pesAt pictureStart 9, pesAt soundStart 9] := by
    decide +kernel
  rw [hrun] at hout
  obtain rfl := Option.some.inj hout
  exact absurd (hkeep 256 (by decide)) (by decide +kernel)

end XferRust.Playlist
