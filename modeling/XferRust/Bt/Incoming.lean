import XferRust.Bt.MseHandshake

/-! # The beginning of a session

`run_peer_inner` from the outcome of the encrypted handshake to the message loop: where the BT
handshake of the other side is taken from, what is put before the reader, and what is written.  A
payload that came with the encrypted handshake is looked at only where it is long enough for a BT
handshake; what it holds behind one, or instead of one, goes nowhere (`payload_arrives_iff`).
-/
namespace XferRust.Bt

/-- What `Display` shows of an error. -/
def IoError.text : IoError → String
  | .unexpectedEof text => text
  | .invalidData text => text

namespace Mse

/-- `EncryptedStream::poll_read`, read by read: every chunk is deciphered from where the stream
stands. -/
def decrypted (recvCipher : Rc4) : List (List UInt8) → List (List UInt8)
  | [] => []
  | chunk :: chunks =>
    let (bytes, recvCipher) := recvCipher.process chunk
    bytes :: decrypted recvCipher chunks

theorem flatten_decrypted (r : Rc4) (chunks : List (List UInt8)) :
    (decrypted r chunks).flatten = r.enc chunks.flatten := by
  induction chunks generalizing r with
  | nil => rfl
  | cons chunk chunks ih =>
    rw [decrypted, Rc4.process_eq, List.flatten_cons, List.flatten_cons, Rc4.enc_append, ih]

theorem decrypted_proper {r : Rc4} {chunks : List (List UInt8)} (h : Chunks.Proper chunks) :
    Chunks.Proper (decrypted r chunks) := by
  induction chunks generalizing r with
  | nil => exact h
  | cons chunk chunks ih =>
    intro c hc
    rw [decrypted, Rc4.process_eq] at hc
    rcases List.mem_cons.mp hc with rfl | hc
    · have hlen := Rc4.length_enc r chunk
      intro he
      rw [he] at hlen
      exact h chunk List.mem_cons_self (List.length_eq_zero_iff.mp hlen.symm)
    · exact ih h.tail c hc

namespace PeOutcome

/-- The payload of the other side, `peer_ia`. -/
def peerIa : PeOutcome → List UInt8
  | .encrypted _ _ _ peerIa => peerIa
  | .plaintext _ peerIa => peerIa

/-- The bytes under the stream that is read from, `rest` being those that the handshake has not
read: an encrypted stream holds the ones read too far, the reader gets them of a plain one. -/
def below (rest : List UInt8) : PeOutcome → List UInt8
  | .encrypted _ _ readPending _ => readPending ++ rest
  | .plaintext _ _ => rest

/-- What is on the wire when the owner of the stream sends something. -/
def wire (sent : List UInt8) : PeOutcome → List UInt8
  | .encrypted sendCipher _ _ _ => sendCipher.enc sent
  | .plaintext _ _ => sent

theorem length_wire (o : PeOutcome) (sent : List UInt8) : (o.wire sent).length = sent.length := by
  cases o with
  | encrypted => exact Rc4.length_enc _ _
  | plaintext => rfl

end PeOutcome

/-! ## What `run_peer_inner` does with the outcome -/

/-- What it has then: `peer_hs_opt`, or why the payload is no handshake; the bytes of the payload
that were looked at; its reader, and the reads to come. -/
structure Opened where
  peerHs : Option (Except String Bt.Handshake)
  looked : List UInt8
  reader : PeerReader
  stream : List (List UInt8)

/-- `decode_handshake` of the payload, which looks at the bytes of one handshake. -/
def Opened.fromPayload (failure : String) (peerIa : List UInt8) (reader : PeerReader)
    (stream : List (List UInt8)) : Opened where
  peerHs := some ((decodeHandshake peerIa).mapError fun e => failure ++ ": " ++ e.text)
  looked := peerIa.take hsLen
  reader := reader
  stream := stream

/-- The match on the outcome, `chunks` being the reads under the stream. -/
def opened (chunks : List (List UInt8)) : PeOutcome → Opened
  | .encrypted _ recvCipher _ peerIa =>
    if hsLen ≤ peerIa.length then
      .fromPayload "MSE 捎带 BT 握手解析失败" peerIa .new (decrypted recvCipher chunks)
    else
      { peerHs := none, looked := [], reader := .new, stream := decrypted recvCipher chunks }
  | .plaintext pending peerIa =>
    if hsLen ≤ peerIa.length then
      .fromPayload "MSE 明文流 BT 握手解析失败" peerIa
        (if pending = [] then .new else PeerReader.new.preload pending) chunks
    else
      { peerHs := none, looked := [], reader := PeerReader.new.preload pending, stream := chunks }

/-- What has become of a session before its message loop. -/
structure Begun where
  peerHs : Except String Bt.Handshake
  reader : PeerReader
  stream : List (List UInt8)
  /-- What it has written, one entry for each `write_all`. -/
  written : List (List UInt8)

/-- The check of the torrent after the handshake. -/
def sameTorrent (infoHash : List UInt8) (hs : Bt.Handshake) : Except String Bt.Handshake :=
  if hs.infoHash ≠ infoHash then .error "对端 info_hash 不匹配" else .ok hs

/-- The handshake phase: a handshake that came with the payload is taken, and otherwise one is
read and answered. -/
def Opened.begin (infoHash ourHandshake : List UInt8) (weInitiate : Bool) (o : Opened) : Begun :=
  match o.peerHs with
  | some (.error e) =>
    { peerHs := .error e, reader := o.reader, stream := o.stream, written := [] }
  | some (.ok hs) =>
    { peerHs := sameTorrent infoHash hs, reader := o.reader, stream := o.stream, written := [] }
  | none =>
    let first := if weInitiate then [ourHandshake] else []
    match o.reader.readHandshake o.stream with
    | (.ok none, reader, stream) =>
      { peerHs := .error "对端关闭连接（握手阶段）", reader, stream, written := first }
    | (.error e, reader, stream) =>
      { peerHs := .error ("握手读取失败: " ++ e.text), reader, stream, written := first }
    | (.ok (some hs), reader, stream) =>
      -- nothing is shown to a peer of another torrent
      if hs.infoHash ≠ infoHash then
        { peerHs := .error "对端 info_hash 不匹配", reader, stream, written := first }
      else
        { peerHs := .ok hs, reader, stream
          written := first ++ if weInitiate then [] else [ourHandshake] }

/-- The bytes that are put before the handshake's and the messages' parser, in order. -/
def Opened.input (o : Opened) : List UInt8 := o.looked ++ o.reader.remaining o.stream

/-! ## What is put before the parsers -/

/-- `o` is what is made of a payload `ia`, with `later` behind it on the connection. -/
structure Opened.From (ia later : List UInt8) (o : Opened) : Prop where
  looked : o.looked = if hsLen ≤ ia.length then ia.take hsLen else []
  isSome : o.peerHs.isSome = decide (hsLen ≤ ia.length)
  fresh : o.reader.handshake = none
  later : o.reader.remaining o.stream = later
  proper : Chunks.Proper o.stream

/-- **Both kinds of outcome** keep what came behind the payload, wherever the handshake stopped
reading and however the rest is cut. -/
theorem opened_from {chunks : List (List UInt8)} (hc : Chunks.Proper chunks) {rest : List UInt8}
    (o : PeOutcome) (hcut : chunks.flatten = o.below rest) :
    (opened chunks o).From o.peerIa
      (match o with
        | .encrypted _ recvCipher readPending _ => recvCipher.enc (readPending ++ rest)
        | .plaintext pending _ => pending ++ rest) := by
  cases o with
  | encrypted sendCipher recvCipher readPending peerIa =>
    have hlater : PeerReader.new.remaining (decrypted recvCipher chunks) =
        recvCipher.enc (readPending ++ rest) :=
      (flatten_decrypted recvCipher chunks).trans (congrArg _ hcut)
    unfold opened PeOutcome.peerIa
    dsimp only
    split
    · rename_i hlong
      exact ⟨(if_pos hlong).symm, (decide_eq_true hlong).symm, rfl, hlater, decrypted_proper hc⟩
    · rename_i hshort
      exact ⟨(if_neg hshort).symm, (decide_eq_false hshort).symm, rfl, hlater,
        decrypted_proper hc⟩
  | plaintext pending peerIa =>
    have hlater : (PeerReader.new.preload pending).remaining chunks = pending ++ rest := by
      unfold PeerReader.remaining
      rw [PeerReader.preload_buf, hcut]
      exact congrArg (· ++ rest) (List.append_nil pending)
    have hfresh : (PeerReader.new.preload pending).handshake = none := by
      unfold PeerReader.preload
      split <;> rfl
    unfold opened PeOutcome.peerIa
    dsimp only
    split
    · rename_i hlong
      have hreader : (if pending = [] then PeerReader.new else PeerReader.new.preload pending) =
          PeerReader.new.preload pending := by
        split
        · rename_i hnil
          rw [PeerReader.preload, if_pos hnil]
        · rfl
      rw [hreader]
      exact ⟨(if_pos hlong).symm, (decide_eq_true hlong).symm, hfresh, hlater, hc⟩
    · rename_i hshort
      exact ⟨(if_neg hshort).symm, (decide_eq_false hshort).symm, hfresh, hlater, hc⟩

namespace Opened

variable {ia later : List UInt8} {o : Opened}

/-- **The payload is put before the parsers** when it is as long as a handshake, or there is
none. -/
theorem From.input_eq_iff (h : o.From ia later) :
    o.input = ia ++ later ↔ ia.length = hsLen ∨ ia = [] := by
  unfold input
  rw [h.later, h.looked]
  constructor
  · intro heq
    have hsame := List.append_cancel_right heq
    split at hsame
    · rename_i hlong
      have hlen := congrArg List.length hsame
      rw [List.length_take, Nat.min_eq_left hlong] at hlen
      exact .inl hlen.symm
    · exact .inr hsame.symm
  · rintro (hlen | rfl)
    · rw [if_pos (Nat.le_of_eq hlen.symm), ← hlen, List.take_length]
    · rw [if_neg (by decide)]

/-- Bytes at whose front there is a handshake of the torrent. -/
def Greets (infoHash bytes : List UInt8) : Prop :=
  ∃ hs, decodeHandshake bytes = .ok hs ∧ hs.infoHash = infoHash

/-- **A side that did not open the connection writes a handshake of its own** unless the payload
was long enough for one, and if one comes behind it. -/
theorem From.written_eq_nil_iff (h : o.From ia later) (infoHash ourHandshake : List UInt8) :
    (o.begin infoHash ourHandshake false).written = [] ↔
      hsLen ≤ ia.length ∨ ¬ Greets infoHash later := by
  have hsome := h.isSome
  unfold begin
  match hhs : o.peerHs with
  | some (.error e) =>
    rw [hhs] at hsome
    exact ⟨fun _ => .inl (of_decide_eq_true hsome.symm), fun _ => rfl⟩
  | some (.ok hs) =>
    rw [hhs] at hsome
    exact ⟨fun _ => .inl (of_decide_eq_true hsome.symm), fun _ => rfl⟩
  | none =>
    rw [hhs] at hsome
    have hshort : ¬ hsLen ≤ ia.length := of_decide_eq_false hsome.symm
    have hread (hs : Bt.Handshake) : (o.reader.readHandshake o.stream).1 = .ok (some hs) ↔
        decodeHandshake later = .ok hs := by
      rw [← h.later]
      exact PeerReader.readHandshake_ok_iff h.fresh h.proper
    have hgoal : Greets infoHash later ↔
        ∃ hs, (o.reader.readHandshake o.stream).1 = .ok (some hs) ∧ hs.infoHash = infoHash := by
      simp only [hread]
      rfl
    rw [or_iff_right hshort, hgoal]
    dsimp only
    match o.reader.readHandshake o.stream with
    | (.ok none, reader, stream) =>
      refine ⟨fun _ => ?_, fun _ => rfl⟩
      rintro ⟨hs, hno, -⟩
      cases hno
    | (.error e, reader, stream) =>
      refine ⟨fun _ => ?_, fun _ => rfl⟩
      rintro ⟨hs, hno, -⟩
      cases hno
    | (.ok (some hs), reader, stream) =>
      dsimp only
      split
      · rename_i hother
        refine ⟨fun _ => ?_, fun _ => rfl⟩
        rintro ⟨hs', hsame, hhash⟩
        cases hsame
        exact hother hhash
      · rename_i hsame
        constructor
        · intro hnil
          cases hnil
        · exact fun hno => absurd ⟨hs, rfl, Decidable.not_not.mp hsame⟩ hno

end Opened

/-! ## Both ends -/

namespace Handshake

/-- The payload has reached the responder's parsers with all that was `sent` after it, and the
initiator gets one handshake: the one that it reads in the encrypted handshake, and none that the
responder's session writes behind it. -/
structure Arrives (c : Handshake) (oa ob : PeOutcome) (sent : List UInt8)
    (chunks : List (List UInt8)) : Prop where
  intact : (opened chunks ob).input = c.payload ++ sent
  once : oa.peerIa :: ((opened chunks ob).begin c.skey c.ourHandshake false).written =
    [c.ourHandshake]

variable {sha1 : List UInt8 → List UInt8} {c : Handshake} {s : Duplex IoError PeOutcome}
  {oa ob : PeOutcome}

/-- What the responder makes of a handshake that both sides have made. -/
theorem Made.opened_from {pendingA pendingB sent : List UInt8}
    (h : Made sha1 c pendingA pendingB oa ob) (htold : c.told = c.payload.length)
    (hB : pendingB ++ s.ab = oa.wire sent) {chunks : List (List UInt8)}
    (hc : Chunks.Proper chunks) (hcut : chunks.flatten = ob.below s.ab) :
    (opened chunks ob).From c.payload sent ∧ oa.peerIa = c.ourHandshake := by
  have htake : c.payload.take c.told = c.payload := by rw [htold, List.take_length]
  have hfrom := Mse.opened_from hc ob hcut
  rcases h with ⟨rfl, rfl⟩ | ⟨rfl, rfl⟩
  · dsimp only [PeOutcome.peerIa, PeOutcome.wire] at hfrom hB ⊢
    rw [hB, htold, Rc4.enc_enc, List.take_length] at hfrom
    rw [htold, List.take_length]
    exact ⟨hfrom, rfl⟩
  · dsimp only [PeOutcome.peerIa, PeOutcome.wire] at hfrom hB ⊢
    rw [hB, htake] at hfrom
    rw [htake]
    exact ⟨hfrom, rfl⟩

end Handshake

/-- **The initial payload arrives, and the responder introduces itself once**, if and only if the
payload is as long as a BT handshake, or there is no payload and no BT handshake of the torrent
after it either: for every payload that the responder admits, every choice of the cipher, every
order of the steps and every cut into reads.  (The initiator's key must not look like a plaintext
handshake.) -/
theorem payload_arrives_iff {sha1 : List UInt8 → List UInt8} (c : Handshake)
    (hsha : ∀ m, (sha1 m).length = 20) (hm : c.Unmarked sha1) (hmax : c.payload.length ≤ maxIa)
    {s : Duplex IoError PeOutcome} (hrun : Duplex.Steps (c.start sha1) s) {oa ob : PeOutcome}
    (ha : s.a = .done oa) (hb : s.b = .done ob) {sent : List UInt8} (hsent : s.appA = oa.wire sent)
    {chunks : List (List UInt8)} (hc : Chunks.Proper chunks)
    (hcut : chunks.flatten = ob.below s.ab) :
    c.Arrives oa ob sent chunks ↔
      ¬ c.LooksPlain ∧
        (c.payload.length = hsLen ∨ (c.payload = [] ∧ ¬ Opened.Greets c.skey sent)) := by
  have htold : c.told = c.payload.length :=
    Handshake.told_eq_iff.mpr (Nat.lt_of_le_of_lt hmax (by decide))
  rcases Handshake.made_or_plain hsha hm hrun ha hb with
    ⟨hnot, pendingA, pendingB, hmade, -, hB⟩ | ⟨hplain, rfl, hmore⟩
  · rw [htold, List.drop_length, hsent] at hB
    obtain ⟨hfrom, hia⟩ := hmade.opened_from htold hB hc hcut
    have hwritten := hfrom.written_eq_nil_iff c.skey c.ourHandshake
    have hinput := hfrom.input_eq_iff
    constructor
    · rintro ⟨hintact, honce⟩
      refine ⟨hnot, ?_⟩
      rw [hia, List.cons.injEq, hwritten] at honce
      rcases hinput.mp hintact with hlen | hnil
      · exact .inl hlen
      · rw [hnil] at honce
        exact .inr ⟨hnil, honce.2.resolve_left (by decide)⟩
    · rintro ⟨-, hcase⟩
      refine ⟨hinput.mpr (hcase.imp id And.left), ?_⟩
      rw [hia, List.cons.injEq, hwritten]
      exact ⟨rfl, hcase.imp (fun hlen => Nat.le_of_eq hlen.symm) And.right⟩
  · refine ⟨fun harrives => ?_, fun h => absurd hplain h.1⟩
    -- the key itself is put before the parsers
    have hfrom := opened_from hc (.plaintext plainHead []) hcut
    have hinput := (hfrom.input_eq_iff.mpr (.inr rfl)).symm.trans harrives.intact
    have hlen := congrArg List.length hinput
    rw [hsent, PeOutcome.length_wire] at hmore
    simp only [List.length_append, PeOutcome.peerIa, List.length_nil] at hlen hmore
    omega

/-- A run of the small handshake to its end, and what the initiator sends then. -/
theorem smallHandshake_sends {payload : List UInt8} (h : payload.length % 65536 ≤ maxIa)
    (sent : List UInt8) :
    ∃ s oa ob, Duplex.Steps ((smallHandshake payload).start Sha1.digest) s ∧ s.a = .done oa ∧
      s.b = .done ob ∧ s.appA = oa.wire sent ∧
      ∃ chunks, Chunks.Proper chunks ∧ chunks.flatten = ob.below s.ab := by
  obtain ⟨s, oa, ob, hrun, ha, hb, happ⟩ := smallHandshake_completes payload h
  refine ⟨{ s with ab := s.ab ++ oa.wire sent, appA := s.appA ++ oa.wire sent }, oa, ob,
    hrun.tail (.sendA _ ha), ha, hb, ?_, Chunks.exists_proper _⟩
  rw [happ]
  exact List.nil_append _

/-- The handshake of a peer of the small handshake's torrent. -/
def smallPayload : List UInt8 := encodeHandshake (List.replicate 20 7) (List.replicate 20 1)

/-- A payload that is a BT handshake arrives with the message behind it. -/
theorem smallPayload_arrives :
    ∃ s oa ob chunks, Duplex.Steps ((smallHandshake smallPayload).start Sha1.digest) s ∧
      s.a = .done oa ∧ s.b = .done ob ∧
      (smallHandshake smallPayload).Arrives oa ob (Message.encode .interested) chunks := by
  have hlen : smallPayload.length = hsLen := PeerReader.length_encodeHandshake rfl rfl
  have hmax : smallPayload.length ≤ maxIa := hlen ▸ (by decide)
  obtain ⟨s, oa, ob, hrun, ha, hb, hsent, chunks, hc, hcut⟩ :=
    smallHandshake_sends (Nat.le_trans (Nat.mod_le _ _) hmax) (Message.encode .interested)
  exact ⟨s, oa, ob, chunks, hrun, ha, hb,
    (payload_arrives_iff (smallHandshake smallPayload) Sha1.length_digest
      (smallHandshake_unmarked _) hmax hrun ha hb hsent hc hcut).mpr
      ⟨smallHandshake_not_plain _, .inl hlen⟩⟩

/-- A message that came in the payload, behind the BT handshake, does not arrive: with a payload
of seventy-three bytes both sides finish, and the responder's parsers get sixty-eight of them. -/
theorem messageInPayload_lost :
    let payload := smallPayload ++ Message.encode .interested
    ∃ s oa ob chunks, payload.length ≤ maxIa ∧
      Duplex.Steps ((smallHandshake payload).start Sha1.digest) s ∧ s.a = .done oa ∧
      s.b = .done ob ∧ s.appA = oa.wire [] ∧ chunks.flatten = ob.below s.ab ∧
      ¬ (smallHandshake payload).Arrives oa ob [] chunks := by
  intro payload
  have hlen : payload.length = 73 := by
    rw [List.length_append, show smallPayload.length = hsLen from
      PeerReader.length_encodeHandshake rfl rfl]
    rfl
  have hmax : payload.length ≤ maxIa := hlen ▸ (by decide)
  have htold : (smallHandshake payload).told = payload.length :=
    Handshake.told_eq_iff.mpr (Nat.lt_of_le_of_lt hmax (by decide))
  obtain ⟨s, oa, ob, hrun, ha, hb, hsent, chunks, hc, hcut⟩ :=
    smallHandshake_sends (Nat.le_trans (Nat.mod_le _ _) hmax) []
  refine ⟨s, oa, ob, chunks, hmax, hrun, ha, hb, hsent, hcut, fun harrives => ?_⟩
  rcases Handshake.made_or_plain Sha1.length_digest (smallHandshake_unmarked _) hrun ha hb with
    ⟨-, pendingA, pendingB, hmade, -, hB⟩ | ⟨hplain, -⟩
  · rw [htold, hsent] at hB
    have hB' : pendingB ++ s.ab = oa.wire [] := by
      rw [hB]
      exact congrArg (· ++ oa.wire []) (congrArg _ (List.drop_length (l := payload)))
    obtain ⟨hfrom, -⟩ := hmade.opened_from htold hB' hc hcut
    rcases hfrom.input_eq_iff.mp harrives.intact with hlen' | hnil
    · exact absurd (hlen.symm.trans hlen') (by decide)
    · exact absurd (hlen.symm.trans (congrArg List.length hnil)) (by decide)
  · exact smallHandshake_not_plain _ hplain

end Mse

end XferRust.Bt
