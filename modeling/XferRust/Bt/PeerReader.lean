import XferRust.Lib.Chunks
import XferRust.Bt.Message

/-! # The reader of peer-wire messages

`PeerReader` keeps what it has read and not yet used, reads until a message is complete, and
drops exactly that message.  What comes out is what was sent, message by message, wherever the
connection cuts the bytes (`readMessages_encode`).
-/
namespace XferRust.Bt

/-- `PSTR`. -/
def pstr : List UInt8 := "BitTorrent protocol".toList.map fun c => UInt8.ofNat c.toNat

@[simp] theorem length_pstr : pstr.length = 19 := by decide

/-- `RESERVED`: extensions (BEP 10), fast extension (BEP 6), DHT (BEP 5). -/
def reservedBytes : List UInt8 := [0, 0, 0, 0, 0, 0x10, 0, 0x05]

/-- `Handshake`, as read from the wire. -/
structure Handshake where
  infoHash : List UInt8
  peerId : List UInt8
  reserved : List UInt8

/-- `HS_LEN`. -/
def hsLen : Nat := 68

/-- `encode_handshake`. -/
def encodeHandshake (infoHash peerId : List UInt8) : List UInt8 :=
  UInt8.ofNat pstr.length :: (pstr ++ (reservedBytes ++ (infoHash ++ peerId)))

/-- The checks of `read_handshake` and `decode_handshake` on sixty-eight bytes or more, and the
fields they take out of them. -/
def parseHandshake (data : List UInt8) : Except IoError Handshake :=
  let pstrlen := (data.headD 0).toNat
  if pstrlen ≠ pstr.length then .error (.invalidData s!"握手 pstrlen 异常: {pstrlen}")
  else if (data.drop 1).take pstrlen ≠ pstr then .error (.invalidData "协议标识串不匹配")
  else
    .ok
      { reserved := (data.drop (1 + pstrlen)).take 8
        infoHash := (data.drop (9 + pstrlen)).take 20
        peerId := (data.drop (29 + pstrlen)).take 20 }

/-- `decode_handshake`. -/
def decodeHandshake (data : List UInt8) : Except IoError Handshake :=
  if data.length < hsLen then .error (.invalidData s!"握手数据不足: {data.length} < 68")
  else parseHandshake data

/-- The bound of `read_message` on the length of a message. -/
def messageLimit : Nat := 2 * 1024 * 1024

/-- `PeerReader`. -/
structure PeerReader where
  buf : List UInt8
  handshake : Option Handshake

namespace PeerReader

/-- `PeerReader::new`. -/
def new : PeerReader := { buf := [], handshake := none }

/-- `preload`: bytes that were read before come first. -/
def preload (r : PeerReader) (bytes : List UInt8) : PeerReader :=
  if bytes = [] then r else { r with buf := bytes ++ r.buf }

/-- What reading something leaves: the result, the reader, and the chunks still to come. -/
abbrev Read (α : Type) := Except IoError (Option α) × PeerReader × List (List UInt8)

/-- The loop of a reader over `fill`, `onEnd` being what it answers at the end of the stream. -/
def fillThen {α : Type} (r : PeerReader) (n : Nat) (stream : List (List UInt8))
    (onEnd : List UInt8 → Except IoError (Option α))
    (next : PeerReader → List (List UInt8) → Read α) : Read α :=
  match Chunks.fillTo n r.buf stream with
  | (true, buf, rest) => next { r with buf } rest
  | (false, buf, rest) => (onEnd buf, { r with buf }, rest)

/-- The end of `read_handshake`, with a handshake in the buffer. -/
def takeHandshake (r : PeerReader) (stream : List (List UInt8)) : Read Handshake :=
  match parseHandshake r.buf with
  | .error e => (.error e, r, stream)
  | .ok hs => (.ok (some hs), { buf := r.buf.drop hsLen, handshake := some hs }, stream)

/-- `read_handshake`. -/
def readHandshake (r : PeerReader) (stream : List (List UInt8)) : Read Handshake :=
  match r.handshake with
  | some hs => (.ok (some hs), r, stream)
  | none =>
    r.fillThen hsLen stream
      (fun buf => if buf = [] then .ok none else .error (.unexpectedEof "握手数据不完整"))
      takeHandshake

/-- The length prefix at the front of the buffer. -/
def lengthPrefix : List UInt8 → Nat
  | b0 :: b1 :: b2 :: b3 :: _ => (BigEndian.toU32 b0 b1 b2 b3).toNat
  | _ => 0

/-- The end of `read_message`: `total` bytes of the buffer are the message. -/
def takeMessage (total : Nat) (r : PeerReader) (stream : List (List UInt8)) : Read Message :=
  match parseMessage ((r.buf.take total).drop 4) with
  | .error e => (.error e, r, stream)
  | .ok msg => (.ok (some msg), { r with buf := r.buf.drop total }, stream)

/-- `read_message` from where the length prefix is in the buffer. -/
def readBody (r : PeerReader) (stream : List (List UInt8)) : Read Message :=
  let len := lengthPrefix r.buf
  if messageLimit < len then (.error (.invalidData s!"消息长度异常: {len}"), r, stream)
  else
    let total := 4 + len
    r.fillThen total stream (fun _ => .error (.unexpectedEof "消息体不完整")) (takeMessage total)

/-- `read_message`. -/
def readMessage (r : PeerReader) (stream : List (List UInt8)) : Read Message :=
  r.fillThen 4 stream
    (fun buf => if buf = [] then .ok none else .error (.unexpectedEof "消息长度前缀不完整"))
    readBody

/-- What `n` calls of `read_message` in turn return. -/
def readMessages (r : PeerReader) (stream : List (List UInt8)) :
    Nat → List (Except IoError (Option Message))
  | 0 => []
  | n + 1 =>
    let (res, r, stream) := r.readMessage stream
    res :: r.readMessages stream n

@[simp] theorem preload_buf (r : PeerReader) (bytes : List UInt8) :
    (r.preload bytes).buf = bytes ++ r.buf := by
  unfold preload
  split
  · rename_i he
    rw [he, List.nil_append]
  · rfl

/-! ## What a call leaves -/

/-- The bytes that the reader has and the stream still brings. -/
def remaining (r : PeerReader) (stream : List (List UInt8)) : List UInt8 := r.buf ++ stream.flatten

variable {r : PeerReader} {stream : List (List UInt8)}

/-- With enough bytes to come the loop goes on with them, and with nothing else changed. -/
theorem fillThen_spec {α : Type} {n : Nat} (hs : Chunks.Proper stream)
    (hn : n ≤ (r.remaining stream).length) (onEnd : List UInt8 → Except IoError (Option α))
    (next : PeerReader → List (List UInt8) → Read α) :
    ∃ r' stream', r.fillThen n stream onEnd next = next r' stream' ∧ n ≤ r'.buf.length ∧
      r'.remaining stream' = r.remaining stream ∧ Chunks.Proper stream' := by
  obtain ⟨buf, rest, hfill, hlen, heq, hproper⟩ := Chunks.fillTo_spec hs hn
  refine ⟨{ r with buf }, rest, ?_, hlen, heq, hproper⟩
  unfold fillThen
  rw [hfill]

variable {tail : List UInt8}

/-- What is to come starts with `front`, and as much is in the buffer: then it is `front`. -/
theorem take_remaining {front : List UInt8} (hrem : r.remaining stream = front ++ tail)
    (hlen : front.length ≤ r.buf.length) :
    r.buf.take front.length = front ∧
      remaining { r with buf := r.buf.drop front.length } stream = tail := by
  unfold remaining at hrem
  rw [← List.take_append_drop front.length r.buf, List.append_assoc] at hrem
  exact List.append_inj hrem (by rw [List.length_take, Nat.min_eq_left hlen])

/-- A buffer that starts like an encoding has its length in front. -/
theorem lengthPrefix_of_prefix {buf rest : List UInt8} {n : Nat} (hn : n ≤ messageLimit)
    (hlen : 4 ≤ buf.length) (heq : buf ++ rest = BigEndian.ofU32 (UInt32.ofNat n) ++ tail) :
    lengthPrefix buf = n := by
  match buf, hlen with
  | b0 :: b1 :: b2 :: b3 :: more, _ =>
    simp only [BigEndian.ofU32, List.cons_append, List.nil_append, List.cons.injEq] at heq
    obtain ⟨rfl, rfl, rfl, rfl, -⟩ := heq
    have hsmall : n < 2 ^ 32 := Nat.lt_of_le_of_lt hn (by decide)
    rw [lengthPrefix, BigEndian.toU32_ofU32]
    exact UInt32.toNat_ofNat_of_lt' hsmall

/-- **One call takes one message** off what is to come. -/
theorem readMessage_encode {m : Message} (hs : Chunks.Proper stream) (hm : m.Proper)
    (hlimit : m.encode.length ≤ 4 + messageLimit) (hrem : r.remaining stream = m.encode ++ tail) :
    ∃ r' stream', r.readMessage stream = (.ok (some m), r', stream') ∧
      r'.remaining stream' = tail ∧ Chunks.Proper stream' := by
  obtain ⟨body, henc, hparse⟩ := encode_eq m
  have hfour : (BigEndian.ofU32 (UInt32.ofNat body.length)).length = 4 := rfl
  have hbody : body.length ≤ messageLimit := by
    rw [henc, List.length_append, hfour] at hlimit
    exact Nat.le_of_add_le_add_left hlimit
  have hlong : 4 + body.length ≤ (r.remaining stream).length := by
    rw [hrem, henc, List.length_append, List.length_append, hfour]
    omega
  obtain ⟨r₁, stream₁, hpre₁, hlen₁, hrem₁, hs₁⟩ := fillThen_spec hs
    (Nat.le_trans (Nat.le_add_right 4 _) hlong) _ readBody
  have hlen : lengthPrefix r₁.buf = body.length :=
    lengthPrefix_of_prefix hbody hlen₁
      ((hrem₁.trans hrem).trans (by rw [henc, List.append_assoc]))
  have hlong₁ : 4 + body.length ≤ (r₁.remaining stream₁).length := hrem₁.symm ▸ hlong
  obtain ⟨r₂, stream₂, htotal, hlen₂, hrem₂, hs₂⟩ := fillThen_spec hs₁ hlong₁
    (fun _ => .error (.unexpectedEof "消息体不完整")) (takeMessage (4 + body.length))
  have henclen : m.encode.length = 4 + body.length := by rw [henc, List.length_append, hfour]
  obtain ⟨htake, hdrop⟩ := take_remaining (hrem₂.trans (hrem₁.trans hrem)) (henclen ▸ hlen₂)
  rw [henclen] at htake hdrop
  refine ⟨{ r₂ with buf := r₂.buf.drop (4 + body.length) }, stream₂, ?_, hdrop, hs₂⟩
  unfold readMessage
  rw [hpre₁]
  unfold readBody
  simp only [hlen, if_neg (Nat.not_lt.mpr hbody)]
  rw [htotal]
  unfold takeMessage
  rw [htake, henc, List.drop_left' hfour, hparse hm]

/-- At the end of the stream, between two messages, every call says so. -/
theorem readMessages_end (handshake : Option Handshake) (k : Nat) :
    readMessages { buf := [], handshake } [] k = List.replicate k (.ok none) := by
  induction k with
  | zero => rfl
  | succ k ih =>
    rw [List.replicate_succ, ← ih]
    rfl

/-- **The messages that were sent come out, in order, and nothing else does.** -/
theorem readMessages_encode {msgs : List Message} (hs : Chunks.Proper stream)
    (hm : ∀ m ∈ msgs, m.Proper) (hlimit : ∀ m ∈ msgs, m.encode.length ≤ 4 + messageLimit)
    (hrem : r.remaining stream = msgs.flatMap Message.encode) (k : Nat) :
    r.readMessages stream (msgs.length + k) =
      msgs.map (fun m => .ok (some m)) ++ List.replicate k (.ok none) := by
  induction msgs generalizing r stream with
  | nil =>
    obtain ⟨hbuf, hstream⟩ := List.append_eq_nil_iff.mp hrem
    obtain ⟨buf, handshake⟩ := r
    obtain rfl : buf = [] := hbuf
    rw [hs.eq_nil hstream, List.length_nil, Nat.zero_add]
    exact readMessages_end handshake k
  | cons m msgs ih =>
    obtain ⟨r', stream', hone, hrem', hs'⟩ := readMessage_encode hs (hm m List.mem_cons_self)
      (hlimit m List.mem_cons_self) (hrem.trans List.flatMap_cons)
    rw [List.length_cons, Nat.add_right_comm, readMessages, hone]
    exact congrArg _ (ih hs' (fun x hx => hm x (List.mem_cons_of_mem _ hx))
      (fun x hx => hlimit x (List.mem_cons_of_mem _ hx)) hrem')

/-! ## The handshake before the messages -/

variable {infoHash peerId : List UInt8}

theorem length_encodeHandshake (hi : infoHash.length = 20) (hp : peerId.length = 20) :
    (encodeHandshake infoHash peerId).length = hsLen := by
  simp only [encodeHandshake, List.length_cons, List.length_append, length_pstr, hi, hp]
  rfl

theorem parseHandshake_fields {b : UInt8} {reserved : List UInt8} (hb : b.toNat = 19)
    (hr : reserved.length = 8) (hi : infoHash.length = 20) (hp : peerId.length = 20)
    (rest : List UInt8) :
    parseHandshake (b :: (pstr ++ (reserved ++ (infoHash ++ (peerId ++ rest))))) =
      .ok { infoHash, peerId, reserved } := by
  have hone : (b :: (pstr ++ (reserved ++ (infoHash ++ (peerId ++ rest))))).drop 20 =
      reserved ++ (infoHash ++ (peerId ++ rest)) := List.drop_left' length_pstr
  have htwo : (b :: (pstr ++ (reserved ++ (infoHash ++ (peerId ++ rest))))).drop 28 =
      infoHash ++ (peerId ++ rest) := by
    rw [show 28 = 20 + 8 from rfl, ← List.drop_drop, hone, List.drop_left' hr]
  have hthree : (b :: (pstr ++ (reserved ++ (infoHash ++ (peerId ++ rest))))).drop 48 =
      peerId ++ rest := by
    rw [show 48 = 28 + 20 from rfl, ← List.drop_drop, htwo, List.drop_left' hi]
  unfold parseHandshake
  simp only [List.headD_cons, hb, length_pstr, ne_eq, not_true_eq_false, if_false,
    Nat.reduceAdd, hone, htwo, hthree, List.drop_one, List.tail_cons,
    List.take_left' length_pstr, List.take_left' hr, List.take_left' hi, List.take_left' hp]

theorem parseHandshake_encode (hi : infoHash.length = 20) (hp : peerId.length = 20)
    (rest : List UInt8) :
    parseHandshake (encodeHandshake infoHash peerId ++ rest) =
      .ok { infoHash, peerId, reserved := reservedBytes } := by
  simp only [encodeHandshake, List.cons_append, List.append_assoc]
  exact parseHandshake_fields (by decide) rfl hi hp rest

/-- **A handshake leaves the bytes behind it to the messages.** -/
theorem readHandshake_encode (hr : r.handshake = none) (hs : Chunks.Proper stream)
    (hi : infoHash.length = 20) (hp : peerId.length = 20)
    (hrem : r.remaining stream = encodeHandshake infoHash peerId ++ tail) :
    ∃ r' stream', r.readHandshake stream =
        (.ok (some { infoHash, peerId, reserved := reservedBytes }), r', stream') ∧
      r'.remaining stream' = tail ∧ Chunks.Proper stream' := by
  have hlen := length_encodeHandshake hi hp
  have hlong : hsLen ≤ (r.remaining stream).length := by
    rw [hrem, List.length_append, hlen]
    exact Nat.le_add_right hsLen tail.length
  obtain ⟨r₁, stream₁, hfill, hlen₁, hrem₁, hs₁⟩ := fillThen_spec hs hlong _ takeHandshake
  obtain ⟨htake, hdrop⟩ := take_remaining (hrem₁.trans hrem) (hlen ▸ hlen₁)
  rw [hlen] at hdrop
  refine ⟨{ buf := r₁.buf.drop hsLen
            handshake := some { infoHash, peerId, reserved := reservedBytes } },
    stream₁, ?_, hdrop, hs₁⟩
  unfold readHandshake
  rw [hr]
  dsimp only
  rw [hfill]
  have hparse : parseHandshake r₁.buf = .ok { infoHash, peerId, reserved := reservedBytes } := by
    rw [← List.take_append_drop (encodeHandshake infoHash peerId).length r₁.buf, htake]
    exact parseHandshake_encode hi hp _
  unfold takeHandshake
  rw [hparse]

/-- Sixty-eight bytes are all that is looked at. -/
theorem parseHandshake_append {data : List UInt8} (h : hsLen ≤ data.length) (rest : List UInt8) :
    parseHandshake (data ++ rest) = parseHandshake data := by
  have hlong : 68 ≤ data.length := h
  have hne : data ≠ [] := List.length_pos_iff.mp (Nat.lt_of_lt_of_le (by decide) hlong)
  have hfield (i n : Nat) (hin : i + n ≤ 68) :
      ((data ++ rest).drop i).take n = (data.drop i).take n := by
    rw [List.drop_append_of_le_length (by omega),
      List.take_append_of_le_length (by rw [List.length_drop]; omega)]
  unfold parseHandshake
  rw [show (data ++ rest).headD 0 = data.headD 0 by
    cases data with
    | nil => exact absurd rfl hne
    | cons b data => rfl]
  dsimp only
  split
  · rfl
  · rename_i hpstr
    have hlen : (data.headD 0).toNat = 19 := by
      rw [length_pstr] at hpstr
      exact Decidable.not_not.mp hpstr
    rw [hlen]
    simp only [hfield _ _ (show 1 + 19 ≤ 68 by decide),
      hfield _ _ (show 1 + 19 + 8 ≤ 68 by decide),
      hfield _ _ (show 9 + 19 + 20 ≤ 68 by decide),
      hfield _ _ (show 29 + 19 + 20 ≤ 68 by decide)]

/-- **The handshake that a fresh reader finds** is the one at the front of what is to come. -/
theorem readHandshake_ok_iff (hr : r.handshake = none) (hs : Chunks.Proper stream)
    {hs' : Handshake} :
    (r.readHandshake stream).1 = .ok (some hs') ↔
      decodeHandshake (r.remaining stream) = .ok hs' := by
  unfold readHandshake
  rw [hr]
  dsimp only
  rcases Nat.lt_or_ge (r.remaining stream).length hsLen with hshort | hlong
  · obtain ⟨buf, rest, hfill⟩ := Chunks.fillTo_short hshort
    unfold fillThen decodeHandshake
    rw [hfill, if_pos hshort]
    constructor
    · intro h
      dsimp only at h
      split at h <;> cases h
    · intro h
      cases h
  · obtain ⟨r₁, stream₁, hfill, hlen₁, hrem₁, -⟩ := fillThen_spec hs hlong
      (fun buf => if buf = [] then .ok none else .error (.unexpectedEof "握手数据不完整"))
      takeHandshake
    have hparse : decodeHandshake (r.remaining stream) = parseHandshake r₁.buf := by
      unfold decodeHandshake
      rw [if_neg (Nat.not_lt.mpr hlong), ← hrem₁]
      exact parseHandshake_append hlen₁ _
    rw [hfill, hparse]
    unfold takeHandshake
    cases parseHandshake r₁.buf with
    | error e => exact ⟨nofun, nofun⟩
    | ok hs₁ =>
      constructor
      · intro h
        cases h
        rfl
      · intro h
        cases h
        rfl

end PeerReader

open PeerReader in
/-- **Framing.**  Every message is parsed back from its encoding; and the reader yields the
messages whose encodings it is given, each once and in order, and then the end, for every cut of
the bytes into reads, whatever of them was in its buffer or preloaded. -/
theorem messages_delivered :
    (∀ m : Message, m.Proper → parseMessage (m.encode.drop 4) = .ok m) ∧
      ∀ (msgs : List Message) (r : PeerReader) (preloaded : List UInt8)
        (stream : List (List UInt8)) (k : Nat),
        (∀ m ∈ msgs, m.Proper ∧ m.encode.length ≤ 4 + messageLimit) → Chunks.Proper stream →
        preloaded ++ r.buf ++ stream.flatten = msgs.flatMap Message.encode →
        (r.preload preloaded).readMessages stream (msgs.length + k) =
          msgs.map (fun m => .ok (some m)) ++ List.replicate k (.ok none) := by
  refine ⟨fun m hm => parseMessage_encode hm, fun msgs r preloaded stream k hm hs hrem => ?_⟩
  refine readMessages_encode hs (fun m h => (hm m h).1) (fun m h => (hm m h).2) ?_ k
  unfold remaining
  rw [preload_buf, hrem]

open PeerReader in
/-- A `have` cut twice, with its first bytes preloaded, and a keep-alive behind it. -/
theorem cut_have_delivered :
    parseMessage ((Message.unknown 99 [7]).encode.drop 4) = .ok (.unknown 99 [7]) ∧
      (new.preload [0, 0]).readMessages [[0], [5, 4, 0], [0, 0, 3, 0, 0], [0, 0]] 3 =
        [.ok (some (.have_ 3)), .ok (some .keepAlive), .ok none] :=
  ⟨messages_delivered.1 _ (by decide),
    messages_delivered.2 [Message.have_ 3, Message.keepAlive] new [0, 0] _ 1
      (by decide) (by unfold Chunks.Proper; decide) (by decide)⟩

open PeerReader in
/-- **A connection**, however it is cut and whatever of it is preloaded: its handshake, the messages
behind it, and the end. -/
theorem connection_delivered {infoHash peerId : List UInt8} (hi : infoHash.length = 20)
    (hp : peerId.length = 20) (msgs : List Message) (preloaded : List UInt8)
    (stream : List (List UInt8)) (k : Nat)
    (hm : ∀ m ∈ msgs, m.Proper ∧ m.encode.length ≤ 4 + messageLimit) (hs : Chunks.Proper stream)
    (hsent : preloaded ++ stream.flatten =
      encodeHandshake infoHash peerId ++ msgs.flatMap Message.encode) :
    ∃ r stream', (new.preload preloaded).readHandshake stream =
        (.ok (some { infoHash, peerId, reserved := reservedBytes }), r, stream') ∧
      r.readMessages stream' (msgs.length + k) =
        msgs.map (fun m => .ok (some m)) ++ List.replicate k (.ok none) := by
  have hnone : (new.preload preloaded).handshake = none := by
    unfold preload
    split <;> rfl
  have hrem : (new.preload preloaded).remaining stream =
      encodeHandshake infoHash peerId ++ msgs.flatMap Message.encode := by
    rw [remaining, preload_buf, ← hsent, new, List.append_nil]
  obtain ⟨r, stream', hread, hbehind, hs'⟩ := readHandshake_encode hnone hs hi hp hrem
  exact ⟨r, stream', hread, readMessages_encode hs' (fun m h => (hm m h).1)
    (fun m h => (hm m h).2) hbehind k⟩

open PeerReader in
/-- A handshake and a `have`, cut within the one and the other. -/
theorem cut_connection_delivered : ∃ r stream',
    (new.preload [19, 66]).readHandshake [(encodeHandshake (List.replicate 20 1)
        (List.replicate 20 2)).drop 2 ++ [0, 0, 0], [5, 4, 0], [0, 0, 3]] =
      (.ok (some ⟨List.replicate 20 1, List.replicate 20 2, reservedBytes⟩), r, stream') ∧
    r.readMessages stream' 2 = [.ok (some (.have_ 3)), .ok none] :=
  connection_delivered rfl rfl [.have_ 3] _ _ 1 (by decide) (by unfold Chunks.Proper; decide)
    (by decide)

end XferRust.Bt
