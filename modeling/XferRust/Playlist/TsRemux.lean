import XferRust.Playlist.TsReassembly

/-! # Packing PES packets

A PES is written as packets of 188 bytes.  What is missing in a packet is filled up in its
adaptation field, and where one byte is missing the field gets two; so a header of 183 bytes with
nothing behind it does not go into one packet, and no reader puts it together.
-/
namespace XferRust.Playlist
open Guarded SortedMap

/-! ## `write_pes` -/

/-- The header with the length of what is behind it. -/
def withLength (pes : Pes) : Guarded String (List UInt8) :=
  if 6 ≤ pes.header.length then do
    let h4 ← index pes.header 4
    let h5 ← index pes.header 5
    if h4.toNat * 256 + h5.toNat ≠ 0 then do
      let rest ← sub pes.header.length 6
      let newLen := rest + pes.payload.length
      -- a length that does not fit is given as unknown
      if 0xFFFF < newLen then .ok ((pes.header.set 4 0).set 5 0)
      else .ok ((pes.header.set 4 (UInt8.ofNat (newLen / 256))).set 5 (UInt8.ofNat newLen))
    else .ok pes.header
  else .ok pes.header

/-- `af_total`: the bytes of the adaptation field with its length, `kept` being what the first
packet had in it. -/
def afTotal (kept : List UInt8) (remaining : Nat) : Nat :=
  let total :=
    if kept ≠ [] then max (1 + kept.length) (tsPayload - remaining)
    else if remaining < tsPayload then tsPayload - remaining else 0
  let total := if total = 1 then 2 else total
  if tsPayload < total then tsPayload else total

/-- The adaptation field: its length, the flags, what goes with them, and `0xFF`. -/
def adaptationField (kept : List UInt8) (total : Nat) : Guarded String (List UInt8) :=
  if 0 < total then
    if 2 ≤ total then do
      let (flags, extra) ← if kept ≠ [] then do
          let flags ← index kept 0
          let extra ← sliceFrom kept 1
          .ok (flags, extra)
        else .ok (0, [])
      .ok (UInt8.ofNat (total - 1) :: flags :: extra ++
        List.replicate (total - (2 + extra.length)) 0xFF)
    else .ok [UInt8.ofNat (total - 1)]
  else .ok []

/-- The four bytes before the adaptation field. -/
def packetHeader (pid : Nat) (first : Bool) (afc cc : Nat) : List UInt8 :=
  [tsSync, UInt8.ofNat ((if first then 64 else 0) + pid / 256 % 32), UInt8.ofNat pid,
    UInt8.ofNat (afc * 16 + cc % 16)]

/-- The loop of `write_pes`: the packets of `body` from `offset` on, and the next counter. -/
def writeLoop (pes : Pes) (body : List UInt8) :
    Nat → Nat → Bool → List UInt8 → Nat → Guarded String (List UInt8 × Nat)
  | 0, _, _, _, _ => .error .endless
  | rounds + 1, offset, first, out, cc =>
    if offset < body.length ∨ first then do
      let remaining ← sub body.length offset
      let kept := if first then pes.firstAf else []
      let total := afTotal kept remaining
      let space ← sub tsPayload total
      let take := min remaining space
      let afc := if total = 0 then 1 else if take = 0 then 2 else 3
      let af ← adaptationField kept total
      let part ← slice body offset (offset + take)
      let pkt := packetHeader pes.pid first afc cc ++ af ++ part
      assert (pkt.length = tsPacket)
      writeLoop pes body rounds (offset + take) false (out ++ pkt) ((cc + 1) % 16)
    else .ok (out, cc)

/-- `write_pes`. -/
def writePes (out : List UInt8) (pes : Pes) (cc : Nat) : Guarded String (List UInt8 × Nat) := do
  let header ← withLength pes
  let body := header ++ pes.payload
  writeLoop pes body (body.length + 2) 0 true out cc

/-- The continuity counters by PID; of several entries for a PID the first one counts. -/
abbrev Counters := List (Nat × Nat)

/-- The counter of a PID, 0 at first. -/
def counterFor (pid : Nat) (counters : Counters) : Nat := (lookup pid counters).getD 0

/-- The loop over the PES packets of a segment. -/
def writeAll : List Pes → List UInt8 → Counters → Guarded String (List UInt8)
  | [], out, _ => .ok out
  | pes :: list, out, counters => do
    let (out, cc) ← writePes out pes (counterFor pes.pid counters)
    writeAll list out ((pes.pid, cc) :: counters)

/-- The packets of a segment that are kept as they are. -/
def tablePackets (pmtPid : Nat) : List (List UInt8) → Guarded String (List UInt8)
  | [] => .ok []
  | pkt :: pkts => do
    let b1 ← index pkt 1
    let b2 ← index pkt 2
    let rest ← tablePackets pmtPid pkts
    if pidOf b1 b2 = 0 ∨ pidOf b1 b2 = pmtPid then .ok (pkt ++ rest) else .ok rest

/-- `remux_ts`. -/
def remuxTs (data : List UInt8) (pmtPid : Nat) (list : List Pes) : Guarded String (List UInt8) := do
  let tables ← tablePackets pmtPid (Records.chunksExact tsPacket data)
  writeAll list tables []

/-! ## Where a PES header ends -/

/-- The header of a PES is whole and ends at `n`. -/
def StartsAt (pes : List UInt8) (n : Nat) : Prop :=
  n ≤ pes.length ∧ pes.getD 0 0 = 0 ∧ pes.getD 1 0 = 0 ∧ pes.getD 2 0 = 1 ∧
    n = if pes.getD 3 0 ∈ plainStreamIds then 6 else 9 + (pes.getD 8 0).toNat

variable {kept pes : List UInt8} {n pid total : Nat}

theorem StartsAt.six_le (h : StartsAt pes n) : 6 ≤ n := by
  obtain ⟨_, _, _, _, hn⟩ := h
  split at hn <;> omega

theorem StartsAt.unique {m : Nat} (hm : StartsAt pes m) (hn : StartsAt pes n) : m = n :=
  hm.2.2.2.2.trans hn.2.2.2.2.symm

/-- The header is known from its bytes, and the two bytes of its length do not matter. -/
theorem StartsAt.of_agree {pes' : List UInt8} (h : StartsAt pes n) (hlen : n ≤ pes'.length)
    (hagree : ∀ i < n, i ≠ 4 → i ≠ 5 → pes'.getD i 0 = pes.getD i 0) : StartsAt pes' n := by
  have h6 := h.six_le
  obtain ⟨_, h0, h1, h2, hn⟩ := h
  have h3 := hagree 3 (by omega) (by decide) (by decide)
  refine ⟨hlen, (hagree 0 (by omega) (by decide) (by decide)).trans h0,
    (hagree 1 (by omega) (by decide) (by decide)).trans h1,
    (hagree 2 (by omega) (by decide) (by decide)).trans h2, ?_⟩
  rw [h3]
  by_cases hplain : pes.getD 3 0 ∈ plainStreamIds
  · rw [if_pos hplain] at hn ⊢
    exact hn
  · rw [if_neg hplain] at hn ⊢
    rw [hagree 8 (by omega) (by decide) (by decide)]
    exact hn

theorem pesPayloadStart_iff : pesPayloadStart pes = .ok (some n) ↔ StartsAt pes n := by
  by_cases h6 : pes.length < 6
  · rw [pesPayloadStart, if_pos h6]
    constructor
    · intro h
      cases h
    · intro h
      exact absurd (Nat.le_trans h.six_le h.1) (by omega)
  rw [pesPayloadStart, if_neg h6, index_getD (by omega), index_getD (by omega),
    index_getD (by omega), index_getD (by omega)]
  show (if pes.getD 0 0 ≠ 0 ∨ pes.getD 1 0 ≠ 0 ∨ pes.getD 2 0 ≠ 1 then .ok none
    else if pes.getD 3 0 ∈ plainStreamIds then .ok (some 6)
    else if pes.length < 9 then .ok none
    else index pes 8 >>= fun len =>
      if pes.length < 9 + len.toNat then .ok none else .ok (some (9 + len.toNat)) :
        Guarded String (Option Nat)) = .ok (some n) ↔ StartsAt pes n
  by_cases hcode : pes.getD 0 0 ≠ 0 ∨ pes.getD 1 0 ≠ 0 ∨ pes.getD 2 0 ≠ 1
  · rw [if_pos hcode]
    constructor
    · intro h
      cases h
    · rintro ⟨_, h0, h1, h2, _⟩
      rcases hcode with h | h | h
      · exact absurd h0 h
      · exact absurd h1 h
      · exact absurd h2 h
  have h0 : pes.getD 0 0 = 0 := Decidable.not_not.mp fun h => hcode (.inl h)
  have h1 : pes.getD 1 0 = 0 := Decidable.not_not.mp fun h => hcode (.inr (.inl h))
  have h2 : pes.getD 2 0 = 1 := Decidable.not_not.mp fun h => hcode (.inr (.inr h))
  rw [if_neg hcode]
  by_cases hplain : pes.getD 3 0 ∈ plainStreamIds
  · rw [if_pos hplain, StartsAt, if_pos hplain]
    constructor
    · intro h
      obtain rfl := Option.some.inj (Except.ok.inj h)
      exact ⟨by omega, h0, h1, h2, rfl⟩
    · rintro ⟨_, _, _, _, rfl⟩
      rfl
  rw [if_neg hplain, StartsAt, if_neg hplain]
  by_cases h9 : pes.length < 9
  · rw [if_pos h9]
    refine ⟨(fun h => by cases h), ?_⟩
    rintro ⟨hle, _, _, _, hn⟩
    omega
  rw [if_neg h9, index_getD (by omega)]
  show (if pes.length < 9 + (pes.getD 8 0).toNat then .ok none
    else .ok (some (9 + (pes.getD 8 0).toNat)) : Guarded String (Option Nat)) = .ok (some n) ↔ _
  by_cases hfit : pes.length < 9 + (pes.getD 8 0).toNat
  · rw [if_pos hfit]
    refine ⟨(fun h => by cases h), ?_⟩
    rintro ⟨hle, _, _, _, hn⟩
    omega
  · rw [if_neg hfit]
    constructor
    · intro h
      obtain rfl := Option.some.inj (Except.ok.inj h)
      exact ⟨by omega, h0, h1, h2, rfl⟩
    · rintro ⟨_, _, _, _, rfl⟩
      rfl

/-! ## PES packets as they are read -/

/-- What `reassemble_pes` ensures of a PES, whatever is made of its payload. -/
structure Reassembled (pes : Pes) : Prop where
  pid_lt : pes.pid < 8192
  header_whole : StartsAt pes.header pes.header.length
  /-- The header and the adaptation field were in one packet. -/
  in_one : if pes.firstAf = [] then pes.header.length ≤ tsPayload
    else pes.header.length + (pes.firstAf.length + 1) ≤ tsPayload

theorem Reassembled.with_payload {pes : Pes} (h : Reassembled pes) (payload : List UInt8) :
    Reassembled { pes with payload } := ⟨h.pid_lt, h.header_whole, h.in_one⟩

theorem Reassembled.firstAf_le {pes : Pes} (h : Reassembled pes) : pes.firstAf.length ≤ 182 := by
  have h6 := h.header_whole.six_le
  have h184 : tsPayload = 184 := rfl
  have hin := h.in_one
  split at hin
  · rename_i hnil
    rw [hnil]
    exact Nat.zero_le _
  · omega

theorem fieldsOf_pid_lt (pkt : List UInt8) : (fieldsOf pkt).pid < 8192 := by
  have hlow := (pkt.getD 2 0).toNat_lt
  show (pkt.getD 1 0).toNat % 32 * 256 + (pkt.getD 2 0).toNat < 8192
  omega

theorem length_payloadOf_le {pkt : List UInt8} (hlen : pkt.length = tsPacket) :
    (payloadOf pkt).length ≤ tsPacket - payloadOffset pkt := by
  rw [payloadOf]
  split
  · exact Nat.le_of_eq (by rw [List.length_drop, hlen])
  · exact Nat.zero_le _

theorem pesAt_reassembled {pkt : List UInt8} (hlen : pkt.length = tsPacket) {start : Nat}
    (hstart : StartsAt (payloadOf pkt) start) : Reassembled (pesAt pkt start) := by
  have h6 := hstart.six_le
  have hle := hstart.1
  have htake : ((payloadOf pkt).take start).length = start := List.length_take_of_le hle
  have hroom := length_payloadOf_le hlen
  have h188 : tsPacket = 188 := rfl
  have h184 : tsPayload = 184 := rfl
  refine ⟨fieldsOf_pid_lt pkt, ?_, ?_⟩
  · show StartsAt ((payloadOf pkt).take start) ((payloadOf pkt).take start).length
    rw [htake]
    refine hstart.of_agree (Nat.le_of_eq htake.symm) fun i hi _ _ => ?_
    rw [List.getD_eq_getElem?_getD, List.getElem?_take_of_lt hi, List.getD_eq_getElem?_getD]
  · show if afOf pkt = [] then ((payloadOf pkt).take start).length ≤ tsPayload
      else ((payloadOf pkt).take start).length + ((afOf pkt).length + 1) ≤ tsPayload
    rw [htake]
    rw [payloadOffset] at hroom
    by_cases haf : 2 ≤ (fieldsOf pkt).afc
    · rw [if_pos haf] at hroom
      have hafLen : (afOf pkt).length ≤ (pkt.getD 4 0).toNat := by
        rw [afOf, if_pos haf, List.length_take]
        exact Nat.min_le_left _ _
      split <;> omega
    · rw [if_neg haf] at hroom
      have hnil : afOf pkt = [] := if_neg haf
      rw [if_pos hnil]
      omega

/-- **What is put together is well formed**, and no access on the way is out of range. -/
theorem reassembleLoop_ensures {streams : Streams} {pkts : List (List UInt8)}
    (hlen : ∀ pkt ∈ pkts, pkt.length = tsPacket) {out : List Pes} {cur : Option Nat}
    (hout : ∀ pes ∈ out, Reassembled pes ∧ (lookup pes.pid streams).isSome)
    (hcur : ∀ i ∈ cur, i < out.length) :
    Ensures (reassembleLoop streams pkts out cur) fun out' =>
      ∀ pes ∈ out', Reassembled pes ∧ (lookup pes.pid streams).isSome := by
  induction pkts generalizing out cur with
  | nil => exact ensures_ok hout
  | cons pkt pkts ih =>
    obtain ⟨hpkt, hlen⟩ := List.forall_mem_cons.mp hlen
    by_cases he : Elementary streams pkt
    · rw [reassembleLoop_elementary hpkt he]
      refine ensures_ite (fun _ => ?_) fun _ => ?_
      · refine (pesPayloadStart_ensures (payloadOf pkt)).value.bind fun start? hstart => ?_
        match start?, hstart with
        | none, _ => exact ensures_fail _
        | some start, ⟨hle, hstart⟩ =>
          have hle := hle start rfl
          show Ensures (slice (payloadOf pkt) 0 start >>= fun header =>
            sliceFrom (payloadOf pkt) start >>= fun rest => reassembleLoop streams pkts
              (out ++ [Pes.mk (fieldsOf pkt).pid header rest (afOf pkt)]) (some out.length)) _
          rw [slice_ok (Nat.zero_le _) hle, sliceFrom_ok hle]
          refine ih hlen ?_ ?_
          · intro pes hpes
            rcases List.mem_append.mp hpes with hpes | hpes
            · exact hout pes hpes
            · obtain rfl := List.mem_singleton.mp hpes
              exact ⟨pesAt_reassembled hpkt (pesPayloadStart_iff.mp hstart), he⟩
          · intro i hi
            obtain rfl := Option.some.inj hi
            rw [List.length_append, List.length_singleton]
            exact Nat.lt_succ_self _
      · match cur with
        | none => exact ih hlen hout fun _ h => nomatch h
        | some i =>
          refine (ensures_index (hcur i rfl)).bind fun pes hpes => ?_
          obtain ⟨hpes, hsome⟩ := hout pes (List.mem_of_getElem? hpes)
          refine ensures_ite (fun _ => ih hlen ?_ ?_) fun _ => ih hlen hout hcur
          · intro pes' hpes'
            rcases List.mem_or_eq_of_mem_set hpes' with hpes' | rfl
            · exact hout pes' hpes'
            · exact ⟨hpes.with_payload _, hsome⟩
          · intro j hj
            rw [List.length_set]
            exact hcur j hj
    · rw [reassembleLoop_foreign hpkt he]
      exact ih hlen hout hcur

theorem reassemblePes_ensures (data : List UInt8) (streams : Streams) :
    Ensures (reassemblePes data streams) fun out =>
      ∀ pes ∈ out, Reassembled pes ∧ (lookup pes.pid streams).isSome :=
  reassembleLoop_ensures (fun _ => Records.length_of_mem_chunksExact)
    (fun _ h => (List.not_mem_nil h).elim) fun _ h => nomatch h

/-! ## One packet that is written -/

/-- The continuity counter of a packet. -/
def counterOf (pkt : List UInt8) : Nat := (pkt.getD 3 0).toNat % 16

/-- What is in an adaptation field that is filled up: nothing, or what was kept and `0xFF`; the
flags are 0 where nothing was kept. -/
def Stuffed (kept af : List UInt8) : Prop :=
  (kept = [] ∧ af = []) ∨
    ∃ k, af = (if kept = [] then [0] else kept) ++ List.replicate k 0xFF

/-- A packet carries a part of a PES. -/
structure Carries (pid : Nat) (first : Bool) (kept : List UInt8) (cc : Nat)
    (part pkt : List UInt8) : Prop where
  whole : pkt.length = tsPacket
  sync : pkt.head? = some tsSync
  pid_eq : (fieldsOf pkt).pid = pid
  pusi_eq : (fieldsOf pkt).pusi = first
  counter_eq : counterOf pkt = cc % 16
  offset_le : payloadOffset pkt ≤ tsPacket
  stuffed : Stuffed kept (afOf pkt)
  payload_eq : payloadOf pkt = part

theorem fieldsOf_packetHeader {afc : Nat} (hpid : pid < 8192) (hafc : afc < 4) (first : Bool)
    (cc : Nat) (rest : List UInt8) :
    fieldsOf (packetHeader pid first afc cc ++ rest) = ⟨pid, first, afc⟩ := by
  have hhigh : (UInt8.ofNat ((if first then 64 else 0) + pid / 256 % 32)).toNat =
      (if first then 64 else 0) + pid / 256 % 32 := by
    rw [UInt8.toNat_ofNat']
    split <;> omega
  have hlow : (UInt8.ofNat pid).toNat = pid % 256 := UInt8.toNat_ofNat'
  have hlast : (UInt8.ofNat (afc * 16 + cc % 16)).toNat = afc * 16 + cc % 16 := by
    rw [UInt8.toNat_ofNat']
    omega
  show Fields.mk (pidOf (UInt8.ofNat ((if first then 64 else 0) + pid / 256 % 32)) (UInt8.ofNat pid))
    (decide ((UInt8.ofNat ((if first then 64 else 0) + pid / 256 % 32)).toNat / 64 % 2 = 1))
    ((UInt8.ofNat (afc * 16 + cc % 16)).toNat / 16 % 4) = ⟨pid, first, afc⟩
  rw [pidOf, hhigh, hlow, hlast, Fields.mk.injEq]
  refine ⟨?_, ?_, by omega⟩
  · split <;> omega
  · cases first with
    | true => exact decide_eq_true (by rw [if_pos rfl]; omega)
    | false => exact decide_eq_false (by rw [if_neg Bool.false_ne_true]; omega)

theorem counterOf_packetHeader (pid : Nat) (first : Bool) (afc cc : Nat) (rest : List UInt8) :
    counterOf (packetHeader pid first afc cc ++ rest) = cc % 16 := by
  show (UInt8.ofNat (afc * 16 + cc % 16)).toNat % 16 = cc % 16
  rw [UInt8.toNat_ofNat']
  omega

/-- The content of an adaptation field of `total` bytes, behind its length. -/
def filled (kept : List UInt8) (total : Nat) : List UInt8 :=
  let known := if kept = [] then [0] else kept
  known ++ List.replicate (total - (1 + known.length)) 0xFF

theorem adaptationField_filled (h2 : 2 ≤ total) :
    adaptationField kept total = .ok (UInt8.ofNat (total - 1) :: filled kept total) := by
  rw [adaptationField, if_pos (by omega), if_pos h2]
  cases kept with
  | nil => rfl
  | cons flags extra =>
    show (do
      let (flags, extra) ← (if flags :: extra ≠ [] then .ok (flags, extra) else .ok (0, []) :
        Guarded String (UInt8 × List UInt8))
      _) = _
    rw [if_pos (List.cons_ne_nil flags extra)]
    refine congrArg Except.ok (congrArg (UInt8.ofNat (total - 1) :: ·) ?_)
    rw [filled, if_neg (List.cons_ne_nil flags extra), List.length_cons]
    rw [show 1 + (extra.length + 1) = 2 + extra.length by omega]
    rfl

theorem length_filled (h2 : 2 ≤ total) (hkept : kept ≠ [] → kept.length + 1 ≤ total) :
    (filled kept total).length = total - 1 := by
  rw [filled, List.length_append, List.length_replicate]
  by_cases h : kept = []
  · rw [if_pos h, List.length_singleton]
    omega
  · have := hkept h
    rw [if_neg h]
    omega

/-- A packet without an adaptation field. -/
theorem carries_plain (hpid : pid < 8192) (first : Bool) (cc : Nat) {part : List UInt8}
    (hpart : part.length = tsPayload) :
    Carries pid first [] cc part (packetHeader pid first 1 cc ++ [] ++ part) := by
  have hfields := fieldsOf_packetHeader hpid (show 1 < 4 by decide) first cc ([] ++ part)
  rw [List.append_assoc]
  have hoffset : payloadOffset (packetHeader pid first 1 cc ++ ([] ++ part)) = 4 := by
    rw [payloadOffset, hfields]
    rfl
  refine ⟨?_, rfl, by rw [hfields], by rw [hfields], counterOf_packetHeader pid first 1 cc _, ?_,
    .inl ⟨rfl, ?_⟩, ?_⟩
  · show part.length + 4 = tsPacket
    rw [hpart]
    rfl
  · rw [hoffset]
    decide
  · rw [afOf, hfields]
    rfl
  · rw [payloadOf, hoffset, hfields]
    rfl

/-- A packet with an adaptation field. -/
theorem carries_stuffed (hpid : pid < 8192) (first : Bool) (cc : Nat) {part : List UInt8}
    (h2 : 2 ≤ total) (hkept : kept ≠ [] → kept.length + 1 ≤ total)
    (hpart : total + part.length = tsPayload) :
    Carries pid first kept cc part
      (packetHeader pid first 3 cc ++ (UInt8.ofNat (total - 1) :: filled kept total) ++ part) := by
  have h184 : tsPayload = 184 := rfl
  have hfields := fieldsOf_packetHeader hpid (show 3 < 4 by decide) first cc
    ((UInt8.ofNat (total - 1) :: filled kept total) ++ part)
  have hfilled := length_filled h2 hkept
  have hlen : (UInt8.ofNat (total - 1)).toNat = total - 1 := by
    rw [UInt8.toNat_ofNat']
    omega
  rw [List.append_assoc]
  generalize hpkt : packetHeader pid first 3 cc ++
    ((UInt8.ofNat (total - 1) :: filled kept total) ++ part) = pkt at hfields ⊢
  have hsplit : pkt.drop 5 = filled kept total ++ part := by rw [← hpkt]; rfl
  have hafLen : (pkt.getD 4 0).toNat = total - 1 := by rw [← hpkt]; exact hlen
  have hoffset : payloadOffset pkt = 5 + (total - 1) := by
    rw [payloadOffset, hfields, hafLen]
    rfl
  refine ⟨?_, by rw [← hpkt]; rfl, by rw [hfields], by rw [hfields],
    by rw [← hpkt]; exact counterOf_packetHeader pid first 3 cc _, ?_, .inr ?_, ?_⟩
  · have hfive : pkt.length = 5 + (pkt.drop 5).length := by
      rw [← hpkt]
      exact Nat.add_comm _ 5
    rw [hfive, hsplit, List.length_append, hfilled, tsPacket]
    omega
  · rw [hoffset, tsPacket]
    omega
  · refine ⟨total - (1 + (if kept = [] then [0] else kept).length), ?_⟩
    rw [afOf, hfields, hafLen, hsplit]
    show (filled kept total ++ part).take (total - 1) = _
    rw [List.take_left' hfilled]
    rfl
  · have hodd : (Fields.mk pid first 3).afc % 2 = 1 := show 3 % 2 = 1 by decide
    rw [payloadOf, hfields, if_pos hodd, hoffset, ← List.drop_drop, hsplit]
    exact List.drop_left' hfilled

/-! ## The loop of `write_pes` -/

theorem afTotal_nil (remaining : Nat) :
    afTotal [] remaining =
      if tsPayload ≤ remaining then 0 else if remaining = 183 then 2 else tsPayload - remaining := by
  have h184 : tsPayload = 184 := rfl
  have hnil : ¬([] : List UInt8) ≠ [] := fun h => h rfl
  rw [h184, afTotal, h184]
  simp only [if_neg hnil]
  by_cases hfull : 184 ≤ remaining
  · rw [if_pos hfull]
    simp only [if_neg (show ¬remaining < 184 by omega)]
    rfl
  · rw [if_neg hfull]
    simp only [if_pos (show remaining < 184 by omega)]
    by_cases hone : remaining = 183
    · rw [if_pos hone, if_pos (show 184 - remaining = 1 by omega)]
      rfl
    · rw [if_neg hone, if_neg (show ¬184 - remaining = 1 by omega)]
      exact if_neg (by omega)

theorem afTotal_kept (h : kept ≠ []) (hle : kept.length ≤ 183) (remaining : Nat) :
    afTotal kept remaining = max (1 + kept.length) (tsPayload - remaining) := by
  have h184 : tsPayload = 184 := rfl
  have hpos := List.length_pos_iff.mpr h
  rw [afTotal, h184]
  simp only [if_pos h]
  rw [if_neg (show ¬max (1 + kept.length) (184 - remaining) = 1 by omega)]
  exact if_neg (by omega)

/-- How much is left to an adaptation field: none, or two bytes and what was kept; and so much that
the rest of the packet is there. -/
theorem afTotal_spec (hkept : kept.length ≤ 182) {remaining : Nat} (hpos : 0 < remaining) :
    (afTotal kept remaining = 0 ∨ 2 ≤ afTotal kept remaining) ∧
      (kept ≠ [] → kept.length + 1 ≤ afTotal kept remaining) ∧
      afTotal kept remaining < tsPayload ∧ tsPayload - afTotal kept remaining ≤ remaining := by
  have h184 : tsPayload = 184 := rfl
  by_cases h : kept = []
  · subst h
    rw [afTotal_nil]
    refine ⟨?_, fun hne => absurd rfl hne, ?_⟩
    · split
      · exact .inl rfl
      · split <;> omega
    · split
      · omega
      · split <;> omega
  · have hlen := List.length_pos_iff.mpr h
    rw [afTotal_kept h (by omega)]
    exact ⟨.inr (by omega), fun _ => by omega, by omega, by omega⟩

/-- What of the rest of a PES goes into the next packet. -/
def roomFor (kept : List UInt8) (remaining : Nat) : Nat := tsPayload - afTotal kept remaining

/-- Packets that carry the rest of a PES on, one part each; the counter goes from `cc` to `cc'`. -/
inductive CarriesOn (pid : Nat) : Nat → List UInt8 → List (List UInt8) → Nat → Prop where
  | done (cc : Nat) : CarriesOn pid cc [] [] cc
  | more {cc cc' : Nat} {part rest pkt : List UInt8} {pkts : List (List UInt8)}
      (hpkt : Carries pid false [] cc part pkt)
      (hrest : CarriesOn pid ((cc + 1) % 16) rest pkts cc') :
      CarriesOn pid cc (part ++ rest) (pkt :: pkts) cc'

/-- The packets of a PES. -/
inductive Written (pes : Pes) (cc : Nat) : List (List UInt8) → Nat → Prop where
  | mk {header part more pkt : List UInt8} {pkts : List (List UInt8)} {cc' : Nat}
      (hlength : header.length = pes.header.length) (hstart : StartsAt header header.length)
      (hbody : header ++ pes.payload = part ++ more)
      (hroom : part.length = roomFor pes.firstAf (header.length + pes.payload.length))
      (hfirst : Carries pes.pid true pes.firstAf cc part pkt)
      (hrest : CarriesOn pes.pid ((cc + 1) % 16) more pkts cc') : Written pes cc (pkt :: pkts) cc'

/-- The packets of a list of PES packets, with the counters at their beginning. -/
inductive WrittenAll : Counters → List Pes → List (List UInt8) → Prop where
  | nil {counters : Counters} : WrittenAll counters [] []
  | cons {counters : Counters} {pes : Pes} {list : List Pes} {pkts others : List (List UInt8)}
      {cc : Nat} (hpes : Written pes (counterFor pes.pid counters) pkts cc)
      (hlist : WrittenAll ((pes.pid, cc) :: counters) list others) :
      WrittenAll counters (pes :: list) (pkts ++ others)

section Write
variable {pes : Pes} {body : List UInt8}

/-- One round of the loop, once its parts are known. -/
theorem writeLoop_round {first : Bool} {kept : List UInt8}
    (hfirst : (if first then pes.firstAf else []) = kept) {offset take : Nat}
    (hoffset : offset < body.length) (htotal : afTotal kept (body.length - offset) ≤ tsPayload)
    (htake : min (body.length - offset) (roomFor kept (body.length - offset)) = take)
    {afc cc : Nat}
    (hafc : (if afTotal kept (body.length - offset) = 0 then 1 else if take = 0 then 2 else 3) = afc)
    {af part : List UInt8}
    (haf : adaptationField kept (afTotal kept (body.length - offset)) = .ok af)
    (hpart : (body.drop offset).take take = part)
    (hwhole : (packetHeader pes.pid first afc cc ++ af ++ part).length = tsPacket)
    (rounds : Nat) (out : List UInt8) :
    writeLoop pes body (rounds + 1) offset first out cc =
      writeLoop pes body rounds (offset + take) false
        (out ++ (packetHeader pes.pid first afc cc ++ af ++ part)) ((cc + 1) % 16) := by
  have hslice : (slice body offset (offset + take) : Guarded String (List UInt8)) = .ok part := by
    rw [slice_ok (Nat.le_add_right _ _) (by omega), Nat.add_sub_cancel_left, hpart]
  rw [writeLoop, if_pos (.inl hoffset), sub_ok (Nat.le_of_lt hoffset), hfirst]
  show (do
    let space ← sub tsPayload (afTotal kept (body.length - offset))
    let af ← adaptationField kept (afTotal kept (body.length - offset))
    let part ← slice body offset (offset + min (body.length - offset) space)
    assert ((packetHeader pes.pid first (if afTotal kept (body.length - offset) = 0 then 1
      else if min (body.length - offset) space = 0 then 2 else 3) cc ++ af ++ part).length = tsPacket)
    writeLoop pes body rounds (offset + min (body.length - offset) space) false
      (out ++ (packetHeader pes.pid first (if afTotal kept (body.length - offset) = 0 then 1
      else if min (body.length - offset) space = 0 then 2 else 3) cc ++ af ++ part))
      ((cc + 1) % 16)) = _
  rw [sub_ok htotal, haf]
  show (do
    let part ← slice body offset (offset + min (body.length - offset)
      (roomFor kept (body.length - offset)))
    assert ((packetHeader pes.pid first (if afTotal kept (body.length - offset) = 0 then 1
      else if min (body.length - offset) (roomFor kept (body.length - offset)) = 0 then 2 else 3)
      cc ++ af ++ part).length = tsPacket)
    writeLoop pes body rounds (offset + min (body.length - offset)
      (roomFor kept (body.length - offset))) false
      (out ++ (packetHeader pes.pid first (if afTotal kept (body.length - offset) = 0 then 1
        else if min (body.length - offset) (roomFor kept (body.length - offset)) = 0 then 2 else 3)
        cc ++ af ++ part)) ((cc + 1) % 16)) = _
  rw [htake, hafc, hslice]
  show (do
    assert ((packetHeader pes.pid first afc cc ++ af ++ part).length = tsPacket)
    writeLoop pes body rounds (offset + take) false
      (out ++ (packetHeader pes.pid first afc cc ++ af ++ part)) ((cc + 1) % 16)) = _
  rw [assert_ok hwhole]
  rfl

variable (hpid : pes.pid < 8192)
include hpid

/-- **One round of the loop** writes one packet with the next part. -/
theorem writeLoop_step {first : Bool} {kept : List UInt8}
    (hfirst : (if first then pes.firstAf else []) = kept) (hkept : kept.length ≤ 182)
    {offset : Nat} (hoffset : offset < body.length) (rounds : Nat) (out : List UInt8) (cc : Nat) :
    ∃ pkt, writeLoop pes body (rounds + 1) offset first out cc =
        writeLoop pes body rounds (offset + roomFor kept (body.length - offset)) false (out ++ pkt)
          ((cc + 1) % 16) ∧
      Carries pes.pid first kept cc
        ((body.drop offset).take (roomFor kept (body.length - offset))) pkt := by
  obtain ⟨htotal, hfits, hlt, hroom⟩ := afTotal_spec hkept (show 0 < body.length - offset by omega)
  have htake : min (body.length - offset) (roomFor kept (body.length - offset)) =
    roomFor kept (body.length - offset) := Nat.min_eq_right hroom
  have hpart : ((body.drop offset).take (roomFor kept (body.length - offset))).length =
      tsPayload - afTotal kept (body.length - offset) := by
    rw [List.length_take_of_le (by rw [List.length_drop]; exact hroom), roomFor]
  have hpos : roomFor kept (body.length - offset) ≠ 0 := by
    rw [roomFor]
    omega
  rcases htotal with hzero | h2
  · have hnil : kept = [] := Decidable.not_not.mp fun h => by
      have := hfits h
      omega
    rw [hzero] at hpart
    have hc := carries_plain hpid first cc hpart
    subst hnil
    have haf : adaptationField [] (afTotal [] (body.length - offset)) = .ok [] := by
      rw [hzero]
      rfl
    exact ⟨_, writeLoop_round hfirst hoffset (Nat.le_of_lt hlt) htake (if_pos hzero) haf rfl
      hc.whole rounds out, hc⟩
  · have hc := carries_stuffed hpid first cc h2 hfits
      (show afTotal kept (body.length - offset) +
        ((body.drop offset).take (roomFor kept (body.length - offset))).length = tsPayload by omega)
    have hafc : (if afTotal kept (body.length - offset) = 0 then 1
        else if roomFor kept (body.length - offset) = 0 then 2 else 3) = 3 := by
      rw [if_neg (by omega), if_neg hpos]
    exact ⟨_, writeLoop_round hfirst hoffset (Nat.le_of_lt hlt) htake hafc
      (adaptationField_filled h2) rfl hc.whole rounds out, hc⟩

/-- The rest of a PES goes into the packets behind the first one, and the loop ends. -/
theorem writeLoop_rest {rounds offset : Nat} (hoffset : offset ≤ body.length)
    (hrounds : body.length - offset < rounds) (out : List UInt8) (cc : Nat) :
    ∃ pkts cc', writeLoop pes body rounds offset false out cc = .ok (out ++ pkts.flatten, cc') ∧
      CarriesOn pes.pid cc (body.drop offset) pkts cc' := by
  induction rounds generalizing offset out cc with
  | zero => exact absurd hrounds (Nat.not_lt_zero _)
  | succ rounds ih =>
    by_cases hlt : offset < body.length
    · have hnone : ([] : List UInt8).length ≤ 182 := Nat.zero_le _
      obtain ⟨pkt, hstep, hpkt⟩ := writeLoop_step hpid
        (show (if false = true then pes.firstAf else []) = [] from rfl) hnone hlt rounds out cc
      obtain ⟨_, _, hspace, hroom⟩ := afTotal_spec hnone (show 0 < body.length - offset by omega)
      have hpos : 0 < roomFor [] (body.length - offset) := Nat.sub_pos_of_lt hspace
      have hle : roomFor [] (body.length - offset) ≤ body.length - offset := hroom
      obtain ⟨pkts, cc', hrest, hpkts⟩ := ih
        (show offset + roomFor [] (body.length - offset) ≤ body.length by omega) (by omega)
        (out ++ pkt) ((cc + 1) % 16)
      refine ⟨pkt :: pkts, cc', ?_, ?_⟩
      · rw [hstep, hrest, List.flatten_cons, List.append_assoc]
      · have hmore := CarriesOn.more hpkt hpkts
        rwa [← List.drop_drop, List.take_append_drop] at hmore
    · obtain rfl : offset = body.length := by omega
      refine ⟨[], cc, ?_, ?_⟩
      · rw [writeLoop, if_neg (fun h => h.elim hlt Bool.false_ne_true), List.flatten_nil,
          List.append_nil]
      · rw [List.drop_length]
        exact CarriesOn.done cc

end Write

/-- The header keeps its length and all but the two bytes of the length field. -/
theorem withLength_ok (pes : Pes) :
    ∃ header, withLength pes = .ok header ∧ header.length = pes.header.length ∧
      ∀ i, i ≠ 4 → i ≠ 5 → header.getD i 0 = pes.header.getD i 0 := by
  have hset : ∀ a b : UInt8, ((pes.header.set 4 a).set 5 b).length = pes.header.length ∧
      ∀ i, i ≠ 4 → i ≠ 5 → ((pes.header.set 4 a).set 5 b).getD i 0 = pes.header.getD i 0 := by
    intro a b
    refine ⟨by rw [List.length_set, List.length_set], fun i h4 h5 => ?_⟩
    rw [List.getD_eq_getElem?_getD, List.getElem?_set_ne h5.symm, List.getElem?_set_ne h4.symm,
      List.getD_eq_getElem?_getD]
  rw [withLength]
  by_cases h6 : 6 ≤ pes.header.length
  · rw [if_pos h6, index_getD (by omega), index_getD (by omega)]
    show ∃ header, (if (pes.header.getD 4 0).toNat * 256 + (pes.header.getD 5 0).toNat ≠ 0 then
      (sub pes.header.length 6 >>= fun rest =>
        if 0xFFFF < rest + pes.payload.length then .ok ((pes.header.set 4 0).set 5 0)
        else .ok ((pes.header.set 4 (UInt8.ofNat ((rest + pes.payload.length) / 256))).set 5
          (UInt8.ofNat (rest + pes.payload.length))))
      else .ok pes.header : Guarded String (List UInt8)) = .ok header ∧ _
    by_cases hdeclared : (pes.header.getD 4 0).toNat * 256 + (pes.header.getD 5 0).toNat ≠ 0
    · rw [if_pos hdeclared, sub_ok h6]
      show ∃ header, (if 0xFFFF < pes.header.length - 6 + pes.payload.length then _ else _ :
        Guarded String (List UInt8)) = .ok header ∧ _
      split
      · exact ⟨_, rfl, hset 0 0⟩
      · exact ⟨_, rfl, hset _ _⟩
    · rw [if_neg hdeclared]
      exact ⟨_, rfl, rfl, fun _ _ _ => rfl⟩
  · rw [if_neg h6]
    exact ⟨_, rfl, rfl, fun _ _ _ => rfl⟩

/-- **`write_pes` writes a PES**: a packet with the beginning, and packets with the rest. -/
theorem writePes_ok {pes : Pes} (h : Reassembled pes) (out : List UInt8) (cc : Nat) :
    ∃ pkts cc', writePes out pes cc = .ok (out ++ pkts.flatten, cc') ∧ Written pes cc pkts cc' := by
  obtain ⟨header, hheader, hlength, hagree⟩ := withLength_ok pes
  have hstart : StartsAt header header.length :=
    hlength ▸ h.header_whole.of_agree (Nat.le_of_eq hlength.symm) fun i _ => hagree i
  have h6 := hstart.six_le
  have hkept := h.firstAf_le
  have hlen : (header ++ pes.payload).length = header.length + pes.payload.length :=
    List.length_append
  obtain ⟨_, _, _, hroom⟩ := afTotal_spec hkept
    (show 0 < (header ++ pes.payload).length - 0 by omega)
  have hle : roomFor pes.firstAf ((header ++ pes.payload).length - 0) ≤
    (header ++ pes.payload).length - 0 := hroom
  obtain ⟨pkt, hstep, hpkt⟩ := writeLoop_step h.pid_lt
    (show (if true = true then pes.firstAf else []) = pes.firstAf from rfl) hkept
    (show 0 < (header ++ pes.payload).length by omega) ((header ++ pes.payload).length + 1) out cc
  obtain ⟨pkts, cc', hrest, hpkts⟩ := writeLoop_rest h.pid_lt
    (show 0 + roomFor pes.firstAf ((header ++ pes.payload).length - 0) ≤
      (header ++ pes.payload).length by omega)
    (show _ < (header ++ pes.payload).length + 1 by omega) (out ++ pkt) ((cc + 1) % 16)
  refine ⟨pkt :: pkts, cc', ?_, .mk hlength hstart ?_ ?_ hpkt hpkts⟩
  · rw [writePes, hheader]
    show writeLoop pes (header ++ pes.payload) ((header ++ pes.payload).length + 1 + 1) 0 true out
      cc = _
    rw [hstep, hrest, List.flatten_cons, List.append_assoc]
  · rw [← List.drop_drop, List.take_append_drop]
    rfl
  · rw [← hlen]
    exact List.length_take_of_le hle

/-- **`write_pes` writes every PES of a list.** -/
theorem writeAll_ok {list : List Pes} (hlist : ∀ pes ∈ list, Reassembled pes) (out : List UInt8)
    (counters : Counters) :
    ∃ pkts, writeAll list out counters = .ok (out ++ pkts.flatten) ∧
      WrittenAll counters list pkts := by
  induction list generalizing out counters with
  | nil =>
    refine ⟨[], ?_, .nil⟩
    rw [List.flatten_nil, List.append_nil]
    rfl
  | cons pes list ih =>
    obtain ⟨hpes, hlist⟩ := List.forall_mem_cons.mp hlist
    obtain ⟨pkts, cc, hrun, hpkts⟩ := writePes_ok hpes out (counterFor pes.pid counters)
    obtain ⟨others, hothers, hall⟩ := ih hlist (out ++ pkts.flatten) ((pes.pid, cc) :: counters)
    refine ⟨pkts ++ others, ?_, .cons hpkts hall⟩
    rw [writeAll, hrun, List.flatten_append, ← List.append_assoc]
    exact hothers

end XferRust.Playlist
