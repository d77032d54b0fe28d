import XferRust.Lib.ByteProc
import XferRust.Lib.Search
import XferRust.Bt.Crypto
import XferRust.Bt.PeerReader

/-! # The encrypted handshake (MSE)

The two routines of `mse.rs` as routines over a byte stream: the initiator sends its public key
and padding, then the hashes and the encrypted offer with its first payload; the responder
answers with its own key and padding, and then with its choice and its handshake.  Each side finds
the other's encrypted part behind a padding of unknown length by scanning for a marker.
-/
namespace XferRust.Bt.Mse

open ByteProc

/-- `MAX_PAD`. -/
def maxPad : Nat := 512

/-- `SYNC_SCAN_LIMIT`. -/
def syncScanLimit : Nat := maxPad

/-- `BT_HANDSHAKE_LEN`. -/
def btHandshakeLen : Nat := 68

/-- `MAX_IA`. -/
def maxIa : Nat := 636

/-- `PeOutcome`, without the stream itself: of an encrypted stream its two ciphers and the bytes
read too far (`read_pending`), of a plain one those bytes. -/
inductive PeOutcome where
  | encrypted (sendCipher recvCipher : Rc4) (readPending peerIa : List UInt8)
  | plaintext (pending peerIa : List UInt8)

/-- A random padding, as `random_pad` draws it. -/
structure Pad where
  bytes : List UInt8
  short : bytes.length ≤ maxPad

/-- The error of tokio's `read_exact` at the end of the stream. -/
def earlyEof : IoError := .unexpectedEof "early eof"

/-- `scan_sync`, with `buf` read and `scanned` bytes before it given up: returns what was read
behind the marker. -/
def scanSync (marker buf : List UInt8) (scanned : Nat) : ByteProc IoError (List UInt8) :=
  match Search.position marker buf with
  | some pos => .done (buf.drop (pos + marker.length))
  | none =>
    -- the last bytes may be the beginning of a marker that is cut
    let keep := marker.length - 1
    let safeEnd := buf.length - keep
    if syncScanLimit < scanned + safeEnd then .fail (.invalidData "同步标记扫描超限")
    else
      .read 128 fun c =>
        if c = [] then .fail (.invalidData "同步扫描期间连接关闭")
        else scanSync marker (buf.drop safeEnd ++ c) (scanned + safeEnd)
  termination_by syncScanLimit + marker.length + 1 - (scanned + buf.length)
  decreasing_by
    rename_i hc
    have hpos : 0 < c.length := List.length_pos_iff.mpr hc
    simp only [List.length_append, List.length_drop]
    omega

/-- `RawBuf::read_exact_into`: `n` bytes, first of those read before; returns what is left of
these. -/
def readExactInto (n : Nat) (pending : List UInt8) :
    ByteProc IoError (List UInt8 × List UInt8) := do
  let more ← readExact (.unexpectedEof "协商数据不完整") (n - pending.length)
  return (pending.take n ++ more, pending.drop n)

/-- `u32::from_be_bytes` of the first four bytes. -/
def u32At (bytes : List UInt8) : UInt32 := UInt32.ofNat (BigEndian.toNat (bytes.take 4))

/-- `u16::from_be_bytes` of the two bytes at an offset. -/
def u16At (bytes : List UInt8) (o : Nat) : Nat := BigEndian.toNat ((bytes.drop o).take 2)

/-- The length of a list as the two bytes of a `u16`. -/
def lenBytes (bytes : List UInt8) : List UInt8 := BigEndian.ofU16 (UInt16.ofNat bytes.length)

section Routines

variable (sha1 : List UInt8 → List UInt8)

/-- The text of the encrypted offer up to the payload. -/
def offer (provide : UInt32) (padC payload : List UInt8) : List UInt8 :=
  vc ++ BigEndian.ofU32 provide ++ lenBytes padC ++ padC ++ lenBytes payload

/-- The end of `pe_handshake_initiator`, from the scan for the encrypted constant on. -/
def initiatorAnswer (provide : UInt32) (sendStream recvStream : Rc4) :
    ByteProc IoError PeOutcome := do
  let (vcWire, recvStream) := recvStream.process vc
  let leftover ← scanSync vcWire [] 0
  let (hdr, pending) ← readExactInto 6 leftover
  let (hdr, recvStream) := recvStream.process hdr
  let cryptoSelect := u32At hdr
  let padDLen := u16At hdr 4
  rejectIf (maxPad < padDLen) (.invalidData "PadD 长度异常")
  let (padD, pending) ← readExactInto padDLen pending
  let (_, recvStream) := recvStream.process padD
  let (peerHs, leftover) ← readExactInto btHandshakeLen pending
  if cryptoSelect &&& cryptoRc4 ≠ 0 then
    let (peerHs, recvStream) := recvStream.process peerHs
    return .encrypted sendStream recvStream leftover peerHs
  else if cryptoSelect &&& cryptoPlaintext ≠ 0 ∧ provide &&& cryptoPlaintext ≠ 0 then
    return .plaintext leftover peerHs
  else
    let hex := String.ofList (Nat.toDigits 16 cryptoSelect.toNat)
    .fail (.invalidData s!"crypto_select 异常: 0x{hex}")

/-- `pe_handshake_initiator`, for a private key and two paddings. -/
def initiator (x : Nat) (padA padC : Pad) (skey payload : List UInt8) (provide : UInt32) :
    ByteProc IoError PeOutcome := do
  writeAll (publicKey x ++ padA.bytes)
  let yb ← readExact earlyEof keyLen
  rejectIf (isDegenerateKey yb) (.invalidData "对端 DH 公钥退化")
  let shared := computeSharedSecret x yb
  rejectIf (isDegenerateKey shared) (.invalidData "DH 共享密钥退化")
  let (sendStream, recvStream) := deriveRc4Streams sha1 shared skey .initiator
  writeAll (req1Hash sha1 shared ++ obfuscatedSkeyHash sha1 shared skey)
  let (enc, sendStream) := sendStream.process (offer provide padC.bytes payload)
  writeAll enc
  let (ia, sendStream) := sendStream.process payload
  writeAll ia
  initiatorAnswer provide sendStream recvStream

/-- The first twenty bytes of a plaintext handshake. -/
def plainHead : List UInt8 := 0x13 :: pstr

/-- What `pe_handshake_responder` has read of the offer: the ciphers it derived, the mask, the
payload, and the bytes read too far. -/
structure Offer where
  sendStream : Rc4
  recvStream : Rc4
  provide : UInt32
  peerIa : List UInt8
  leftover : List UInt8

/-- The middle of `pe_handshake_responder`: from the scan for the hash to the payload. -/
def responderOffer (shared skey : List UInt8) : ByteProc IoError Offer := do
  let leftover ← scanSync (req1Hash sha1 shared) [] 0
  let (skeyHash, pending) ← readExactInto 20 leftover
  rejectIf (!skeyMatchesObfuscated sha1 skeyHash shared skey)
    (.invalidData "种子识别失败（SKEY 不匹配）")
  let (sendStream, recvStream) := deriveRc4Streams sha1 shared skey .responder
  let (vcRead, pending) ← readExactInto 8 pending
  let (vcRead, recvStream) := recvStream.process vcRead
  rejectIf (vcRead ≠ vc) (.invalidData "VC 校验失败")
  let (hdr, pending) ← readExactInto 6 pending
  let (hdr, recvStream) := recvStream.process hdr
  let padCLen := u16At hdr 4
  rejectIf (maxPad < padCLen) (.invalidData "PadC 长度异常")
  let (padC, pending) ← readExactInto padCLen pending
  let (_, recvStream) := recvStream.process padC
  let (iaLenBuf, pending) ← readExactInto 2 pending
  let (iaLenBuf, recvStream) := recvStream.process iaLenBuf
  let iaLen := u16At iaLenBuf 0
  rejectIf (maxIa < iaLen) (.invalidData "IA 长度异常")
  let (peerIa, leftover) ← readExactInto iaLen pending
  let (peerIa, recvStream) := recvStream.process peerIa
  return { sendStream, recvStream, provide := u32At hdr, peerIa, leftover }

/-- The text of the encrypted answer up to the handshake. -/
def answer (select : UInt32) (padD : List UInt8) : List UInt8 :=
  vc ++ BigEndian.ofU32 select ++ lenBytes padD ++ padD

/-- The end of `pe_handshake_responder`: the choice, RC4 before plaintext, and the answer. -/
def responderAnswer (o : Offer) (padD : Pad) (ourHandshake : List UInt8)
    (forceEncrypted : Bool) : ByteProc IoError PeOutcome :=
  if o.provide &&& cryptoRc4 ≠ 0 then do
    let (resp, sendStream) := o.sendStream.process (answer cryptoRc4 padD.bytes)
    writeAll resp
    let (hs, sendStream) := sendStream.process ourHandshake
    writeAll hs
    return .encrypted sendStream o.recvStream o.leftover o.peerIa
  else if !forceEncrypted ∧ o.provide &&& cryptoPlaintext ≠ 0 then do
    let (resp, _) := o.sendStream.process (answer cryptoPlaintext padD.bytes)
    writeAll resp
    writeAll ourHandshake
    return .plaintext o.leftover o.peerIa
  else .fail (.invalidData "对端未提供可用加密方式")

/-- `pe_handshake_responder`, for a private key and two paddings. -/
def responder (y : Nat) (padB padD : Pad) (skey ourHandshake : List UInt8)
    (forceEncrypted : Bool) : ByteProc IoError PeOutcome := do
  let head ← readExact earlyEof 20
  if head = plainHead then
    rejectIf forceEncrypted (.invalidData "强制加密模式：拒绝明文连接")
    return .plaintext head []
  else
    let rest ← readExact earlyEof (keyLen - 20)
    let ya := head ++ rest
    rejectIf (isDegenerateKey ya) (.invalidData "对端 DH 公钥退化")
    writeAll (publicKey y ++ padB.bytes)
    let shared := computeSharedSecret y ya
    rejectIf (isDegenerateKey shared) (.invalidData "DH 共享密钥退化")
    let o ← responderOffer sha1 shared skey
    responderAnswer o padD ourHandshake forceEncrypted

end Routines

end XferRust.Bt.Mse
