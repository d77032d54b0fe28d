import XferRust.Lib.BigEndian

/-! # Peer-wire messages (BEP 3, 5, 6, 10)

The messages two peers exchange after their handshake, as `message.rs` encodes and parses them:
a length of four bytes, an identifier, and a body whose form depends on the identifier.  The
parser gives back every message from its encoding, whatever its length (`parseMessage_encode`).
-/
namespace XferRust.Bt

/-- The errors of the readers of this crate, with their texts. -/
inductive IoError where
  | unexpectedEof (text : String)
  | invalidData (text : String)

/-- `Message`. -/
inductive Message where
  /-- Four zero bytes, without an identifier. -/
  | keepAlive
  | choke
  | unchoke
  | interested
  | notInterested
  | have_ (index : UInt32)
  | bitfield (bits : List UInt8)
  | request (index begin length : UInt32)
  | piece (index begin : UInt32) (block : List UInt8)
  | cancel (index begin length : UInt32)
  | haveAll
  | haveNone
  | rejectRequest (index begin length : UInt32)
  | allowedFast (index : UInt32)
  | suggestPiece (index : UInt32)
  | port (port : UInt16)
  | extended (extId : UInt8) (payload : List UInt8)
  /-- Whatever has an identifier that is none of the others. -/
  | unknown (id : UInt8) (payload : List UInt8)

namespace Message

/-- `Message::id`. -/
def id : Message → Option UInt8
  | keepAlive => none
  | choke => some 0
  | unchoke => some 1
  | interested => some 2
  | notInterested => some 3
  | have_ _ => some 4
  | bitfield _ => some 5
  | request .. => some 6
  | piece .. => some 7
  | cancel .. => some 8
  | port _ => some 0x09
  | suggestPiece _ => some 0x0D
  | haveAll => some 0x0E
  | haveNone => some 0x0F
  | rejectRequest .. => some 0x10
  | allowedFast _ => some 0x11
  | extended .. => some 0x14
  | unknown id _ => some id

/-- What `encode` writes behind the identifier. -/
def body : Message → List UInt8
  | have_ i => BigEndian.ofU32 i
  | bitfield bf => bf
  | request index begin length | cancel index begin length | rejectRequest index begin length =>
    BigEndian.ofU32 index ++ BigEndian.ofU32 begin ++ BigEndian.ofU32 length
  | piece index begin block => BigEndian.ofU32 index ++ BigEndian.ofU32 begin ++ block
  | port p => BigEndian.ofU16 p
  | suggestPiece index | allowedFast index => BigEndian.ofU32 index
  | extended extId payload => extId :: payload
  | unknown _ payload => payload
  | _ => []

/-- `Message::encode`: the length is written last, into the place kept for it, as a `u32`. -/
def encode (m : Message) : List UInt8 :=
  match m.id with
  | none => [0, 0, 0, 0]
  | some id =>
    let out := id :: m.body
    BigEndian.ofU32 (UInt32.ofNat out.length) ++ out

/-- The identifiers that the parser knows. -/
def reserved : List UInt8 :=
  [0, 1, 2, 3, 4, 5, 6, 7, 8, 0x09, 0x0D, 0x0E, 0x0F, 0x10, 0x11, 0x14]

/-- A message that is `Unknown` only when it has to be. -/
def Proper : Message → Prop
  | unknown id _ => id ∉ reserved
  | _ => True

instance : DecidablePred Proper := fun m => by cases m <;> unfold Proper <;> infer_instance

end Message

/-- `u32_at` of `parse_message`: the `u32` at offset `o` of the body. -/
def u32At (body : List UInt8) (o : Nat) : Except IoError UInt32 :=
  match body.drop o with
  | b0 :: b1 :: b2 :: b3 :: _ => .ok (BigEndian.toU32 b0 b1 b2 b3)
  | _ => .error (.invalidData "消息体不足")

/-- `parse_message`. -/
def parseMessage (payload : List UInt8) : Except IoError Message :=
  match payload with
  | [] => .ok .keepAlive
  | id :: body =>
    match id with
    | 0 => .ok .choke
    | 1 => .ok .unchoke
    | 2 => .ok .interested
    | 3 => .ok .notInterested
    | 4 => do return .have_ (← u32At body 0)
    | 5 => .ok (.bitfield body)
    | 6 => do return .request (← u32At body 0) (← u32At body 4) (← u32At body 8)
    | 7 => do return .piece (← u32At body 0) (← u32At body 4) (body.drop 8)
    | 8 => do return .cancel (← u32At body 0) (← u32At body 4) (← u32At body 8)
    | 0x09 =>
      match body with
      | b0 :: b1 :: _ => .ok (.port (BigEndian.toU16 b0 b1))
      -- a port that is cut short is passed on as an unknown message
      | _ => .ok (.unknown id body)
    | 0x0D => do return .suggestPiece (← u32At body 0)
    | 0x0E => .ok .haveAll
    | 0x0F => .ok .haveNone
    | 0x10 => do return .rejectRequest (← u32At body 0) (← u32At body 4) (← u32At body 8)
    | 0x11 => do return .allowedFast (← u32At body 0)
    | 0x14 =>
      match body with
      | extId :: payload => .ok (.extended extId payload)
      | [] => .ok (.unknown id body)
    | other => .ok (.unknown other body)

/-! ## The parser inverts the encoder -/

/-- The `u32` that stands at an offset of the body. -/
theorem u32At_append (pre : List UInt8) (x : UInt32) (rest : List UInt8) :
    u32At (pre ++ (BigEndian.ofU32 x ++ rest)) pre.length = .ok x := by
  unfold u32At
  rw [List.drop_left]
  simp only [BigEndian.ofU32, List.cons_append, List.nil_append, BigEndian.toU32_ofU32]

theorem u32At_zero (x : UInt32) (rest : List UInt8) :
    u32At (BigEndian.ofU32 x ++ rest) 0 = .ok x :=
  u32At_append [] x rest

theorem u32At_four (x y : UInt32) (rest : List UInt8) :
    u32At (BigEndian.ofU32 x ++ (BigEndian.ofU32 y ++ rest)) 4 = .ok y :=
  u32At_append (BigEndian.ofU32 x) y rest

theorem u32At_eight (x y z : UInt32) (rest : List UInt8) :
    u32At (BigEndian.ofU32 x ++ (BigEndian.ofU32 y ++ (BigEndian.ofU32 z ++ rest))) 8 =
      .ok z := by
  rw [← List.append_assoc]
  exact u32At_append (BigEndian.ofU32 x ++ BigEndian.ofU32 y) z rest

/-- The body of a request, of its cancellation and of its rejection. -/
theorem u32At_triple (x y z : UInt32) :
    u32At (BigEndian.ofU32 x ++ BigEndian.ofU32 y ++ BigEndian.ofU32 z) 0 = .ok x ∧
      u32At (BigEndian.ofU32 x ++ BigEndian.ofU32 y ++ BigEndian.ofU32 z) 4 = .ok y ∧
      u32At (BigEndian.ofU32 x ++ BigEndian.ofU32 y ++ BigEndian.ofU32 z) 8 = .ok z := by
  rw [List.append_assoc]
  have hz := u32At_eight x y z []
  rw [List.append_nil] at hz
  exact ⟨u32At_zero x _, u32At_four x y _, hz⟩

theorem parseMessage_triple (mk : UInt32 → UInt32 → UInt32 → Message) (x y z : UInt32) :
    (do
      let body := BigEndian.ofU32 x ++ BigEndian.ofU32 y ++ BigEndian.ofU32 z
      return mk (← u32At body 0) (← u32At body 4) (← u32At body 8)) = Except.ok (mk x y z) := by
  obtain ⟨hx, hy, hz⟩ := u32At_triple x y z
  simp only [hx, hy, hz]
  rfl

theorem parseMessage_index (mk : UInt32 → Message) (x : UInt32) :
    (do return mk (← u32At (BigEndian.ofU32 x) 0)) = Except.ok (mk x) := by
  have hx := u32At_zero x []
  rw [List.append_nil] at hx
  rw [hx]
  rfl

/-- An identifier that the parser does not know makes an unknown message. -/
theorem parseMessage_unknown {id : UInt8} (hid : id ∉ Message.reserved) (payload : List UInt8) :
    parseMessage (id :: payload) = .ok (.unknown id payload) := by
  simp only [Message.reserved, List.mem_cons, List.not_mem_nil, or_false, not_or] at hid
  unfold parseMessage
  split <;> first | rfl | simp_all

/-- The parser gives back every message from its identifier and its body. -/
theorem parseMessage_body {m : Message} (hm : m.Proper) {id : UInt8} (hid : m.id = some id) :
    parseMessage (id :: m.body) = .ok m := by
  cases m with
  | keepAlive => cases hid
  | unknown id' payload =>
    obtain rfl := Option.some.inj hid
    exact parseMessage_unknown hm payload
  | have_ i => obtain rfl := Option.some.inj hid; exact parseMessage_index .have_ i
  | suggestPiece i => obtain rfl := Option.some.inj hid; exact parseMessage_index .suggestPiece i
  | allowedFast i => obtain rfl := Option.some.inj hid; exact parseMessage_index .allowedFast i
  | request i b l => obtain rfl := Option.some.inj hid; exact parseMessage_triple .request i b l
  | cancel i b l => obtain rfl := Option.some.inj hid; exact parseMessage_triple .cancel i b l
  | rejectRequest i b l =>
    obtain rfl := Option.some.inj hid
    exact parseMessage_triple .rejectRequest i b l
  | piece i b block =>
    obtain rfl := Option.some.inj hid
    change (do
      let body := BigEndian.ofU32 i ++ BigEndian.ofU32 b ++ block
      return Message.piece (← u32At body 0) (← u32At body 4) (body.drop 8)) = _
    rw [List.append_assoc]
    simp only [u32At_zero, u32At_four]
    rfl
  | port p =>
    obtain rfl := Option.some.inj hid
    exact congrArg (fun q => Except.ok (Message.port q)) (BigEndian.toU16_ofU16 p)
  | _ => obtain rfl := Option.some.inj hid; rfl

/-! ## Encodings -/

/-- An encoding is the length of what follows, and that. -/
theorem encode_eq (m : Message) :
    ∃ body, m.encode = BigEndian.ofU32 (UInt32.ofNat body.length) ++ body ∧
      (m.Proper → parseMessage body = .ok m) := by
  unfold Message.encode
  cases hid : m.id with
  | none =>
    refine ⟨[], rfl, fun _ => ?_⟩
    cases m <;> first | rfl | cases hid
  | some id => exact ⟨id :: m.body, rfl, fun hm => parseMessage_body hm hid⟩

/-- **Every message survives its encoding**, however long it is. -/
theorem parseMessage_encode {m : Message} (hm : m.Proper) :
    parseMessage (m.encode.drop 4) = .ok m := by
  obtain ⟨body, henc, hparse⟩ := encode_eq m
  rw [henc]
  exact hparse hm

end XferRust.Bt
