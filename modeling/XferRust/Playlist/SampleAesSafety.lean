import XferRust.Playlist.SampleAes

/-! # No segment makes the decryption panic, but one kind

Every index and slice of the decryption is within its bounds, no difference goes below zero and
every loop ends, whatever the segment holds: except where the section of the PMT says that it has
no bytes, and the four bytes of its checksum are taken off.
-/
namespace XferRust.Playlist
open Guarded SortedMap

/-! ## Protected blocks -/

theorem length_xorBlock (a b : Octets 16) : (xorBlock a b).length = 16 := by
  rw [xorBlock, List.length_zipWith, a.length_bytes, b.length_bytes]
  rfl

variable {rounds : Nat}

theorem blockLoop_ensures (cipher : Octets 16 → Octets 16) (skip : Nat) (trailing : Bool)
    {data : List UInt8} {pos : Nat} (hrounds : data.length - pos < rounds) (prev : Octets 16) :
    Ensures (blockLoop cipher skip trailing rounds data prev pos) fun d =>
      d.length = data.length := by
  induction rounds generalizing data pos prev with
  | zero => exact absurd hrounds (Nat.not_lt_zero _)
  | succ rounds ih =>
    rw [blockLoop]
    refine ensures_ite (fun hpos => ?_) fun _ => ensures_ok rfl
    rw [sub_ok (Nat.le_of_lt hpos)]
    refine ensures_ite (fun hrem => ?_) fun _ => ih (by omega) prev
    have hfit : pos + 16 ≤ data.length := by
      split at hrem <;> omega
    refine (ensures_slice (Nat.le_add_right _ _) hfit).bind fun ct _ => ?_
    refine (ensures_overwrite (by rw [length_xorBlock]; exact hfit)).bind fun d hd => ?_
    exact (ih (by omega) _).mono fun d' hd' => hd'.trans hd

variable (dec : SampleDecryptor)

theorem decryptBlock_ensures (data : List UInt8) (skip : Nat) (trailing : Bool) :
    Ensures (dec.decryptBlock data skip trailing) fun d => d.length = data.length :=
  blockLoop_ensures dec.cipher skip trailing (by omega) dec.baseIv

/-! ## H.264 -/

theorem codeAt_ensures {buf : List UInt8} {i : Nat} (h : i + 3 ≤ buf.length) :
    Ensures (codeAt buf i) fun code => code.1 + code.2 ≤ buf.length := by
  rw [codeAt]
  refine ensures_ite (fun hpos => ?_) fun _ => ensures_ok h
  rw [sub_ok hpos]
  refine (ensures_index (show i - 1 < buf.length by omega)).bind fun b _ => ?_
  exact ensures_ite (fun _ => ensures_ok (show i - 1 + 4 ≤ buf.length by omega)) fun _ =>
    ensures_ok h

theorem startCodesLoop_ensures {buf : List UInt8} {i : Nat} {out : List (Nat × Nat)}
    (hrounds : buf.length - i < rounds) (hout : ∀ code ∈ out, code.1 + code.2 ≤ buf.length) :
    Ensures (startCodesLoop buf rounds i out) fun codes =>
      ∀ code ∈ codes, code.1 + code.2 ≤ buf.length := by
  induction rounds generalizing i out with
  | zero => exact absurd hrounds (Nat.not_lt_zero _)
  | succ rounds ih =>
    have happend : ∀ code : Nat × Nat, code.1 + code.2 ≤ buf.length →
        ∀ c ∈ out ++ [code], c.1 + c.2 ≤ buf.length := by
      intro code hcode c hc
      rcases List.mem_append.mp hc with hc | hc
      · exact hout c hc
      · obtain rfl := List.mem_singleton.mp hc
        exact hcode
    rw [startCodesLoop]
    refine ensures_ite (fun hi => ?_) fun _ => ensures_ok hout
    refine (ensures_index (by omega)).bind fun b0 _ => ?_
    refine (ensures_index (by omega)).bind fun b1 _ => ?_
    refine (ensures_index (by omega)).bind fun b2 _ => ?_
    refine ensures_ite (fun _ => ?_) fun _ => ih (by omega) hout
    refine ensures_ite (fun _ => ?_) fun _ => ?_
    · exact (codeAt_ensures hi).bind fun code hcode => ih (by omega) (happend code hcode)
    · refine ensures_ite (fun h4 => ?_) fun _ => ih (by omega) hout
      refine (ensures_index (by omega)).bind fun b3 _ => ?_
      exact ensures_ite (fun _ => ih (by omega) (happend _ h4.1)) fun _ => ih (by omega) hout

theorem startCodes_ensures (buf : List UInt8) :
    Ensures (startCodes buf) fun codes => ∀ code ∈ codes, code.1 + code.2 ≤ buf.length :=
  startCodesLoop_ensures (by omega) fun _ h => (List.not_mem_nil h).elim

theorem decryptOneNal_safe {nal : List UInt8} (h : 0 < nal.length) :
    Safe (decryptOneNal dec nal) := by
  refine (ensures_index h).bind fun head _ => ?_
  refine ensures_ite (fun _ => ensures_ok trivial) fun _ => ?_
  refine ensures_ite (fun _ => ensures_ok trivial) fun hlong => ?_
  rw [h264MinEncryptedNal] at hlong
  rw [sliceFrom_ok (show 32 ≤ (removeEmulationPrevention nal).length by omega)]
  refine (decryptBlock_ensures dec _ _ _).bind fun secret hsecret => ?_
  rw [List.length_drop] at hsecret
  refine (ensures_overwrite (show 32 + secret.length ≤ (removeEmulationPrevention nal).length by
    omega)).bind fun clean _ => ?_
  exact ensures_ok trivial

variable {payload : List UInt8}

theorem nalLoop_safe {codes : List (Nat × Nat)}
    (h : ∀ code ∈ codes, code.1 + code.2 ≤ payload.length) : Safe (nalLoop dec payload codes) := by
  induction codes with
  | nil => exact ensures_ok trivial
  | cons code codes ih =>
    obtain ⟨hcode, hcodes⟩ := List.forall_mem_cons.mp h
    have hend : (codes.head?.map Prod.fst).getD payload.length ≤ payload.length := by
      cases codes with
      | nil => exact Nat.le_refl _
      | cons next _ =>
        have hnext := hcodes next List.mem_cons_self
        show next.1 ≤ payload.length
        omega
    rw [nalLoop]
    refine (ensures_slice (Nat.le_add_right _ _) hcode).bind fun _ _ => ?_
    refine ensures_ite (fun _ => ?_) fun hnal => ?_
    · exact (ih hcodes).bind fun _ _ => ensures_ok trivial
    · refine (ensures_slice (by omega) hend).bind fun nal hlen => ?_
      refine (decryptOneNal_safe dec (by omega)).bind fun _ _ => ?_
      exact (ih hcodes).bind fun _ _ => ensures_ok trivial

theorem decryptH264Payload_safe (payload : List UInt8) : Safe (decryptH264Payload dec payload) := by
  refine (startCodes_ensures payload).bind fun codes hcodes => ?_
  exact ensures_ite (fun _ => ensures_ok trivial) fun _ => nalLoop_safe dec hcodes

/-! ## AAC -/

theorem decryptFrame_ensures {pos frameLen : Nat} (h : pos + frameLen ≤ payload.length)
    (headerLen : Nat) :
    Ensures (decryptFrame dec payload pos headerLen frameLen) fun p =>
      p.length = payload.length := by
  rw [decryptFrame]
  refine ensures_ite (fun hlong => ?_) fun _ => ensures_ok rfl
  refine (ensures_sub (show headerLen ≤ frameLen by omega)).bind fun behind hbehind => ?_
  refine (ensures_sub (show aacClearAfterHeader ≤ behind by omega)).bind fun avail havail => ?_
  refine ensures_ite (fun _ => ?_) fun _ => ensures_ok rfl
  have hend : pos + headerLen + aacClearAfterHeader + avail / 16 * 16 ≤ payload.length := by
    have := Nat.div_mul_le_self avail 16
    omega
  refine (ensures_slice (Nat.le_add_right _ _) hend).bind fun secret hsecret => ?_
  refine (decryptBlock_ensures dec secret 0 true).bind fun clear hclear => ?_
  exact ensures_overwrite (by omega)

theorem frameLoop_safe {pos : Nat} (hrounds : payload.length - pos < rounds) (frames : Nat) :
    Safe (frameLoop dec rounds payload pos frames) := by
  induction rounds generalizing payload pos frames with
  | zero => exact absurd hrounds (Nat.not_lt_zero _)
  | succ rounds ih =>
    rw [frameLoop]
    refine ensures_ite (fun hpos => ?_) fun _ => ensures_ok trivial
    refine (ensures_index (by omega)).bind fun b0 _ => ?_
    refine (ensures_index (by omega)).bind fun b1 _ => ?_
    refine ensures_ite (fun _ => ih (by omega) frames) fun _ => ?_
    refine (ensures_index (by omega)).bind fun b3 _ => ?_
    refine (ensures_index (by omega)).bind fun b4 _ => ?_
    refine (ensures_index (by omega)).bind fun b5 _ => ?_
    refine ensures_ite (fun _ => ensures_ok trivial) fun hframe => ?_
    refine (decryptFrame_ensures dec (by omega) _).bind fun payload' hlen => ?_
    exact ih (by omega) (frames + 1)

theorem decryptAacPayload_safe (payload : List UInt8) : Safe (decryptAacPayload dec payload) := by
  refine (frameLoop_safe dec (by omega) 0).bind fun found _ => ?_
  exact ensures_ite (fun _ => ensures_fail _) fun _ => ensures_ok trivial

/-! ## The streams of a segment -/

theorem decryptPayload_safe (payload : List UInt8) (type : StreamType) :
    Safe (decryptPayload dec payload type) := by
  cases type with
  | h264 => exact decryptH264Payload_safe dec payload
  | aacAdts => exact decryptAacPayload_safe dec payload
  | unsupported raw => exact ensures_fail _

theorem decryptAll_ensures {streams : Streams} {list : List Pes}
    (h : ∀ pes ∈ list, Reassembled pes ∧ (lookup pes.pid streams).isSome) :
    Ensures (decryptAll dec streams list) fun list' => ∀ pes ∈ list', Reassembled pes := by
  induction list with
  | nil => exact ensures_ok fun _ h => (List.not_mem_nil h).elim
  | cons pes list ih =>
    obtain ⟨⟨hpes, hsome⟩, hlist⟩ := List.forall_mem_cons.mp h
    obtain ⟨raw, hraw⟩ := Option.isSome_iff_exists.mp hsome
    rw [decryptAll, hraw]
    refine (decryptPayload_safe dec pes.payload _).bind fun payload _ => ?_
    refine (ih hlist).bind fun rest hrest => ?_
    exact ensures_ok (List.forall_mem_cons.mpr ⟨hpes.with_payload payload, hrest⟩)

/-! ## Packing -/

theorem tablePackets_safe (pmtPid : Nat) {pkts : List (List UInt8)}
    (h : ∀ pkt ∈ pkts, pkt.length = tsPacket) : Safe (tablePackets pmtPid pkts) := by
  induction pkts with
  | nil => exact ensures_ok trivial
  | cons pkt pkts ih =>
    obtain ⟨hpkt, hpkts⟩ := List.forall_mem_cons.mp h
    have h188 : tsPacket = 188 := rfl
    refine (ensures_index (by omega)).bind fun b1 _ => ?_
    refine (ensures_index (by omega)).bind fun b2 _ => ?_
    refine (ih hpkts).bind fun rest _ => ?_
    exact ensures_ite (fun _ => ensures_ok trivial) fun _ => ensures_ok trivial

theorem remuxTs_safe (data : List UInt8) (pmtPid : Nat) {list : List Pes}
    (hlist : ∀ pes ∈ list, Reassembled pes) : Safe (remuxTs data pmtPid list) := by
  refine (tablePackets_safe pmtPid fun _ => Records.length_of_mem_chunksExact).bind
    fun tables _ => ?_
  obtain ⟨_, hrun, _⟩ := writeAll_ok hlist tables []
  rw [hrun]
  exact ensures_ok trivial

/-! ## Tables -/

variable {pkt : List UInt8}

theorem packetPayload_eq (hlen : pkt.length = tsPacket) :
    packetPayload pkt = .ok ((fieldsOf pkt).pid, (fieldsOf pkt).pusi, payloadOf pkt) := by
  rw [packetPayload, readFields_eq hlen]
  show (readPayload pkt (fieldsOf pkt).afc >>= fun payload =>
    .ok ((fieldsOf pkt).pid, (fieldsOf pkt).pusi, payload) : Guarded String _) = _
  rw [readPayload_eq hlen]
  rfl

theorem programLoop_safe (body : List UInt8) (count i : Nat) : Safe (programLoop body count i) := by
  induction count generalizing i with
  | zero => exact ensures_ok trivial
  | succ count ih =>
    rw [programLoop]
    match hrange : getRange body (i * 4) (i * 4 + 4) with
    | none => exact ensures_ok trivial
    | some p =>
      have hlen : p.length = 4 := by
        rw [getRange] at hrange
        split at hrange
        · obtain rfl := Option.some.inj hrange
          rw [List.length_take, List.length_drop]
          omega
        · exact nomatch hrange
      refine (ensures_index (by omega)).bind fun p0 _ => ?_
      refine (ensures_index (by omega)).bind fun p1 _ => ?_
      refine (ensures_index (by omega)).bind fun p2 _ => ?_
      refine (ensures_index (by omega)).bind fun p3 _ => ?_
      exact ensures_ite (fun _ => ensures_ok trivial) fun _ => ih (i + 1)

theorem parsePat_safe (payload : List UInt8) : Safe (parsePat payload) := by
  rw [parsePat]
  match sectionOf payload with
  | none => exact ensures_ok trivial
  | some sec =>
    refine ensures_ite (fun _ => ensures_ok trivial) fun hlen => ?_
    refine (ensures_index (by omega)).bind fun tableId _ => ?_
    refine ensures_ite (fun _ => ensures_ok trivial) fun _ => ?_
    refine (ensures_index (by omega)).bind fun s1 _ => ?_
    refine (ensures_index (by omega)).bind fun s2 _ => ?_
    cases getFrom sec 8 with
    | none =>
      exact ensures_ite (fun _ => ensures_ok trivial) fun hlong =>
        (ensures_sub (by omega)).bind fun _ _ => ensures_ok trivial
    | some body =>
      exact ensures_ite (fun _ => programLoop_safe body _ 0) fun hlong =>
        (ensures_sub (by omega)).bind fun _ _ => programLoop_safe body _ 0

theorem findPat_safe {pkts : List (List UInt8)} (h : ∀ pkt ∈ pkts, pkt.length = tsPacket) :
    Safe (findPat pkts) := by
  induction pkts with
  | nil => exact ensures_ok trivial
  | cons pkt pkts ih =>
    obtain ⟨hpkt, hpkts⟩ := List.forall_mem_cons.mp h
    rw [findPat, packetPayload_eq hpkt]
    refine ensures_ite (fun _ => ?_) fun _ => ih hpkts
    refine (parsePat_safe _).bind fun pmtPid _ => ?_
    exact ensures_ite (fun _ => ensures_ok trivial) fun _ => ih hpkts

/-- The length that a section gives itself, without the three bytes up to there. -/
def sectionLength (sec : List UInt8) : Nat := lengthOf (sec.getD 1 0) (sec.getD 2 0)

/-- The section of a PMT that is whole in a packet, if the packet begins one. -/
def pmtSection (pmtPid : Nat) (pkt : List UInt8) : Option (List UInt8) :=
  if (fieldsOf pkt).pid = pmtPid ∧ (fieldsOf pkt).pusi then
    (sectionOf (payloadOf pkt)).filter fun sec =>
      12 ≤ sec.length ∧ sec.getD 0 0 = 2 ∧ 3 + sectionLength sec ≤ sec.length
  else none

/-- The first section of the PMT that is whole in a packet. -/
def firstPmt (pmtPid : Nat) (pkts : List (List UInt8)) : Option (List UInt8) :=
  pkts.findSome? (pmtSection pmtPid)

variable {sec : List UInt8}

theorem pmtLoop_safe {stop i : Nat} (hstop : stop ≤ sec.length) (hrounds : stop - i < rounds)
    (out : Streams) : Safe (pmtLoop sec stop rounds i out) := by
  induction rounds generalizing i out with
  | zero => exact absurd hrounds (Nat.not_lt_zero _)
  | succ rounds ih =>
    rw [pmtLoop]
    refine ensures_ite (fun hi => ?_) fun _ => ensures_ok trivial
    refine (ensures_index (by omega)).bind fun streamType _ => ?_
    refine (ensures_index (by omega)).bind fun s1 _ => ?_
    refine (ensures_index (by omega)).bind fun s2 _ => ?_
    refine (ensures_index (by omega)).bind fun s3 _ => ?_
    refine (ensures_index (by omega)).bind fun s4 _ => ?_
    exact ih (by omega) _

/-- What is read of a section before its length is used. -/
theorem parsePmt_eq (hsec : sectionOf payload = some sec) (hlen : 12 ≤ sec.length) (out : Streams) :
    parsePmt payload out =
      if sec.getD 0 0 ≠ 2 then .ok (false, out)
      else if sec.length < 3 + sectionLength sec then .ok (false, out)
      else (do
        let stop ← sub (3 + sectionLength sec) 4
        let out ← pmtLoop sec stop (stop + 1)
          (12 + lengthOf (sec.getD 10 0) (sec.getD 11 0)) out
        if out.isEmpty then fail "SAMPLE-AES(TS) 的 PMT 里没有基本流"
        else .ok (true, out)) := by
  rw [parsePmt, hsec]
  show (if sec.length < 12 then _ else _) = _
  rw [if_neg (by omega), index_getD (by omega), index_getD (by omega), index_getD (by omega),
    index_getD (by omega), index_getD (by omega)]
  rfl

variable {pmtPid : Nat}

/-- A packet of the PMT without a whole section is passed over. -/
theorem parsePmt_none (hpkt : (fieldsOf pkt).pid = pmtPid ∧ (fieldsOf pkt).pusi)
    (h : pmtSection pmtPid pkt = none) (out : Streams) :
    parsePmt (payloadOf pkt) out = .ok (false, out) := by
  rw [pmtSection, if_pos hpkt] at h
  match hsec : sectionOf (payloadOf pkt) with
  | none => rw [parsePmt, hsec]
  | some sec =>
    rw [hsec, Option.filter_eq_none_iff] at h
    have hnot := h sec rfl
    by_cases hlen : 12 ≤ sec.length
    · rw [parsePmt_eq hsec hlen]
      by_cases htable : sec.getD 0 0 ≠ 2
      · rw [if_pos htable]
      · rw [if_neg htable]
        have hshort : sec.length < 3 + sectionLength sec := Nat.not_le.mp fun hle =>
          hnot (decide_eq_true ⟨hlen, Decidable.not_not.mp htable, hle⟩)
        rw [if_pos hshort]
    · rw [parsePmt, hsec]
      exact if_pos (by omega)

theorem pmtSection_some (h : pmtSection pmtPid pkt = some sec) :
    ((fieldsOf pkt).pid = pmtPid ∧ (fieldsOf pkt).pusi) ∧ sectionOf (payloadOf pkt) = some sec ∧
      12 ≤ sec.length ∧ sec.getD 0 0 = 2 ∧ 3 + sectionLength sec ≤ sec.length := by
  rw [pmtSection] at h
  split at h
  · rename_i hpkt
    obtain ⟨hsec, hwhole⟩ := Option.filter_eq_some_iff.mp h
    exact ⟨hpkt, hsec, of_decide_eq_true hwhole⟩
  · exact nomatch h

/-- **A whole section is read safely exactly when it says that it has some bytes.** -/
theorem parsePmt_whole (h : pmtSection pmtPid pkt = some sec) (out : Streams) :
    if sectionLength sec = 0 then parsePmt (payloadOf pkt) out = .error .panic
    else Ensures (parsePmt (payloadOf pkt) out) fun r => r.1 = true := by
  obtain ⟨_, hsec, hlen, htable, hwhole⟩ := pmtSection_some h
  rw [parsePmt_eq hsec hlen, if_neg (show ¬sec.getD 0 0 ≠ 2 from fun hne => hne htable),
    if_neg (Nat.not_lt.mpr hwhole)]
  by_cases hzero : sectionLength sec = 0
  · rw [if_pos hzero, sub, if_neg (by omega)]
    rfl
  · rw [if_neg hzero]
    refine (ensures_sub (by omega)).bind fun stop hstop => ?_
    refine (pmtLoop_safe (by omega) (by omega) out).bind fun streams _ => ?_
    exact ensures_ite (fun _ => ensures_fail _) fun _ => ensures_ok rfl

theorem findPmt_safe_iff {pkts : List (List UInt8)} (h : ∀ pkt ∈ pkts, pkt.length = tsPacket)
    (streams : Streams) :
    Safe (findPmt pmtPid pkts streams) ↔ ∀ sec ∈ firstPmt pmtPid pkts, sectionLength sec ≠ 0 := by
  induction pkts generalizing streams with
  | nil => exact ⟨fun _ sec hsec => (nomatch hsec), fun _ => ensures_fail _⟩
  | cons pkt pkts ih =>
    obtain ⟨hpkt, hpkts⟩ := List.forall_mem_cons.mp h
    rw [findPmt, packetPayload_eq hpkt, firstPmt, List.findSome?_cons]
    show Safe (if (fieldsOf pkt).pid = pmtPid ∧ (fieldsOf pkt).pusi = true then
      (parsePmt (payloadOf pkt) streams >>= fun r =>
        if r.1 = true then .ok r.2 else findPmt pmtPid pkts r.2)
      else findPmt pmtPid pkts streams) ↔ _
    match hsec : pmtSection pmtPid pkt with
    | none =>
      by_cases hon : (fieldsOf pkt).pid = pmtPid ∧ (fieldsOf pkt).pusi
      · rw [if_pos hon, parsePmt_none hon hsec]
        exact ih hpkts streams
      · rw [if_neg hon]
        exact ih hpkts streams
    | some sec =>
      have hwhole := parsePmt_whole hsec streams
      rw [if_pos (pmtSection_some hsec).1]
      by_cases hzero : sectionLength sec = 0
      · rw [if_pos hzero] at hwhole
        rw [hwhole]
        exact ⟨fun hsafe => hsafe.elim, fun hne => absurd hzero (hne sec rfl)⟩
      · rw [if_neg hzero] at hwhole
        refine ⟨fun _ s hs => Option.some.inj hs ▸ hzero, fun _ => ?_⟩
        refine hwhole.bind fun r hr => ?_
        rw [if_pos hr]
        exact ensures_ok trivial

/-! ## A segment -/

/-- The section of the PMT of a segment says that it has no bytes. -/
def EmptyPmt (data : List UInt8) : Prop :=
  ∃ pmtPid, findPat (Records.chunksExact tsPacket data) = .ok (some pmtPid) ∧
    ∃ sec ∈ firstPmt pmtPid (Records.chunksExact tsPacket data), sectionLength sec = 0

theorem scanTables_safe_iff (data : List UInt8) : Safe (scanTables data) ↔ ¬EmptyPmt data := by
  have hlen : ∀ pkt ∈ Records.chunksExact tsPacket data, pkt.length = tsPacket :=
    fun _ => Records.length_of_mem_chunksExact
  have hpat := findPat_safe hlen
  rw [scanTables]
  match hfind : findPat (Records.chunksExact tsPacket data) with
  | .ok none =>
    refine ⟨fun _ ⟨pmtPid, hsome, _⟩ => ?_, fun _ => ensures_fail _⟩
    rw [hfind] at hsome
    exact nomatch Except.ok.inj hsome
  | .ok (some pmtPid) =>
    have hiff := @findPmt_safe_iff pmtPid _ hlen []
    have hscan : Safe (findPmt pmtPid (Records.chunksExact tsPacket data) [] >>= fun streams =>
        .ok (pmtPid, streams)) ↔ Safe (findPmt pmtPid (Records.chunksExact tsPacket data) []) := by
      match findPmt pmtPid (Records.chunksExact tsPacket data) [] with
      | .ok _ => exact ⟨fun _ => trivial, fun _ => trivial⟩
      | .error (.error _) => exact Iff.rfl
      | .error .panic => exact Iff.rfl
      | .error .endless => exact Iff.rfl
    refine hscan.trans (hiff.trans ⟨?_, fun h sec hsec hzero => h ⟨pmtPid, hfind, sec, hsec, hzero⟩⟩)
    rintro hpos ⟨pid, hsome, sec, hsec, hzero⟩
    obtain rfl := Option.some.inj (Except.ok.inj (hfind.symm.trans hsome))
    exact hpos sec hsec hzero
  | .error (.error e) =>
    refine ⟨fun _ ⟨pmtPid, hsome, _⟩ => ?_, fun _ => trivial⟩
    rw [hfind] at hsome
    exact nomatch hsome
  | .error .panic => exact (hfind ▸ hpat).elim
  | .error .endless => exact (hfind ▸ hpat).elim

/-- **When the decryption of a segment neither panics nor goes on for ever**: exactly when the
segment is refused for its length or its first byte, or the section of its PMT has some bytes. -/
theorem decryptSampleAesTs_safe_iff (aes : BlockCipher) (data key : List UInt8) (iv : Octets 16) :
    (decryptSampleAesTs aes data key iv ≠ .error .panic ∧
      decryptSampleAesTs aes data key iv ≠ .error .endless) ↔
    ¬(tsPacket ≤ data.length ∧ data.length % tsPacket = 0 ∧ data.head? = some tsSync ∧
      EmptyPmt data) := by
  rw [← safe_iff, decryptSampleAesTs]
  by_cases hlen : data.length < tsPacket ∨ data.length % tsPacket ≠ 0
  · rw [if_pos hlen]
    refine ⟨fun _ h => ?_, fun _ => ensures_fail _⟩
    rcases hlen with hshort | hodd
    · exact absurd h.1 (by omega)
    · exact hodd h.2.1
  rw [if_neg hlen]
  have hlong : tsPacket ≤ data.length := Nat.not_lt.mp fun h => hlen (.inl h)
  have heven : data.length % tsPacket = 0 := Decidable.not_not.mp fun h => hlen (.inr h)
  have hpos : 0 < data.length := Nat.lt_of_lt_of_le (by decide) hlong
  have hhead : data.head? = some (data.getD 0 0) := by
    rw [List.head?_eq_getElem?, List.getD_eq_getElem?_getD, List.getElem?_eq_getElem hpos]
    rfl
  rw [index_getD hpos]
  show Safe (if data.getD 0 0 ≠ tsSync then _ else _) ↔ _
  by_cases hsync : data.getD 0 0 ≠ tsSync
  · rw [if_pos hsync]
    refine ⟨fun _ h => hsync (Option.some.inj (hhead.symm.trans h.2.2.1)), fun _ => ensures_fail _⟩
  rw [if_neg hsync]
  have hsame : data.head? = some tsSync := hhead.trans (congrArg some (Decidable.not_not.mp hsync))
  have hrest : ¬(tsPacket ≤ data.length ∧ data.length % tsPacket = 0 ∧ data.head? = some tsSync ∧
      EmptyPmt data) ↔ ¬EmptyPmt data :=
    not_congr ⟨fun h => h.2.2.2, fun h => ⟨hlong, heven, hsame, h⟩⟩
  rw [hrest, ← scanTables_safe_iff]
  constructor
  · exact Safe.of_bind
  · intro hscan
    refine hscan.bind fun found _ => ?_
    refine (reassemblePes_ensures data found.2).bind fun list hlist => ?_
    refine ensures_ite (fun _ => ensures_fail _) fun _ => ?_
    have hnew : Safe (SampleDecryptor.new aes key iv) :=
      ensures_ite (fun _ => ensures_ok trivial) fun _ => ensures_fail _
    refine hnew.bind fun dec _ => ?_
    refine (decryptAll_ensures dec hlist).bind fun list hlist => ?_
    exact remuxTs_safe data found.1 hlist

/-- A segment whose PMT, on PID 100, has a section of no bytes. -/
def emptyPmtSegment : List UInt8 :=
  [0x47, 0x40, 0x00, 0x10, 0, 0x00, 0xB0, 0x0D, 0, 1, 0xC1, 0, 0, 0, 1, 0xE0, 0x64, 0, 0, 0, 0] ++
    List.replicate 167 0xFF ++
    [0x47, 0x40, 0x64, 0x10, 0, 0x02, 0xB0, 0x00] ++ List.replicate 180 0xFF

theorem emptyPmtSegment_panics :
    decryptSampleAesTs (fun _ block => block) emptyPmtSegment (List.replicate 16 0)
      (Octets.ofSlice 16 []) = .error .panic := by
  decide +kernel

end XferRust.Playlist
