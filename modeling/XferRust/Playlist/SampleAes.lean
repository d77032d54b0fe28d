import XferRust.Playlist.TsRemux

/-! # SAMPLE-AES in MPEG-TS

The streams of a segment are decrypted unit by unit, and the segment is packed again.  The block
cipher is a parameter.
-/
namespace XferRust.Playlist
open Guarded SortedMap

/-! ## Protected blocks -/

/-- The inverse block cipher under each key. -/
abbrev BlockCipher := List UInt8 → Octets 16 → Octets 16

/-- `SampleDecryptor`: the inverse cipher under the key, and the vector each block begins with. -/
structure SampleDecryptor where
  cipher : Octets 16 → Octets 16
  baseIv : Octets 16

/-- `SampleDecryptor::new`. -/
def SampleDecryptor.new (aes : BlockCipher) (key : List UInt8) (iv : Octets 16) :
    Guarded String SampleDecryptor :=
  if key.length = 16 ∨ key.length = 32 then .ok { cipher := aes key, baseIv := iv }
  else
    let other := key.length
    fail s!"AES 密钥长度应为 16 或 32 字节，实际 {other} 字节"

/-- The bytes of two blocks, xored. -/
def xorBlock (a b : Octets 16) : List UInt8 := List.zipWith (· ^^^ ·) a.bytes b.bytes

/-- The loop of `decrypt_block`. -/
def blockLoop (cipher : Octets 16 → Octets 16) (skip : Nat) (trailing : Bool) :
    Nat → List UInt8 → Octets 16 → Nat → Guarded String (List UInt8)
  | 0, _, _, _ => .error .endless
  | rounds + 1, data, prev, pos =>
    if pos < data.length then do
      let rem ← sub data.length pos
      if (if trailing then 16 ≤ rem else 16 < rem) then do
        let ct ← slice data pos (pos + 16)
        let ct := Octets.ofSlice 16 ct
        let data ← overwrite data pos (xorBlock (cipher ct) prev)
        let pos := pos + 16
        blockLoop cipher skip trailing rounds data ct (pos + min skip (data.length - pos))
      else
        let pos := pos + 16
        blockLoop cipher skip trailing rounds data prev (pos + min skip (data.length - pos))
    else .ok data

/-- `decrypt_block`. -/
def SampleDecryptor.decryptBlock (dec : SampleDecryptor) (data : List UInt8) (skip : Nat)
    (trailing : Bool) : Guarded String (List UInt8) :=
  blockLoop dec.cipher skip trailing (data.length + 1) data dec.baseIv 0

/-- The zeros before the next byte, in 32 bits. -/
def countZero (zeros : Nat) (b : UInt8) : Nat := if b = 0 then (zeros + 1) % 4294967296 else 0

/-- The loop of `remove_emulation_prevention`. -/
def removeLoop : Nat → List UInt8 → List UInt8
  | _, [] => []
  | zeros, b :: nal =>
    if 2 ≤ zeros ∧ b = 3 then removeLoop 0 nal else b :: removeLoop (countZero zeros b) nal

/-- `remove_emulation_prevention`. -/
def removeEmulationPrevention (nal : List UInt8) : List UInt8 := removeLoop 0 nal

/-- The loop of `add_emulation_prevention`. -/
def addLoop : Nat → List UInt8 → List UInt8
  | _, [] => []
  | zeros, b :: nal =>
    if 2 ≤ zeros ∧ b ≤ 3 then 3 :: b :: addLoop (countZero 0 b) nal
    else b :: addLoop (countZero zeros b) nal

/-- `add_emulation_prevention`. -/
def addEmulationPrevention (nal : List UInt8) : List UInt8 := addLoop 0 nal

/-! ## H.264 -/

/-- `H264_SKIP`. -/
def h264Skip : Nat := 144

/-- `H264_MIN_ENCRYPTED_NAL`. -/
def h264MinEncryptedNal : Nat := 48

/-- The start code whose three bytes are at `i`; one more 0 before it belongs to it. -/
def codeAt (buf : List UInt8) (i : Nat) : Guarded String (Nat × Nat) :=
  if 0 < i then do
    let before ← sub i 1
    let b ← index buf before
    if b = 0 then .ok (before, 4) else .ok (i, 3)
  else .ok (i, 3)

/-- The loop of `start_codes`. -/
def startCodesLoop (buf : List UInt8) :
    Nat → Nat → List (Nat × Nat) → Guarded String (List (Nat × Nat))
  | 0, _, _ => .error .endless
  | rounds + 1, i, out =>
    if i + 3 ≤ buf.length then do
      let b0 ← index buf i
      let b1 ← index buf (i + 1)
      let b2 ← index buf (i + 2)
      if b0 = 0 ∧ b1 = 0 then
        if b2 = 1 then do
          let code ← codeAt buf i
          startCodesLoop buf rounds (i + 3) (out ++ [code])
        else if i + 4 ≤ buf.length ∧ b2 = 0 then do
          let b3 ← index buf (i + 3)
          if b3 = 1 then startCodesLoop buf rounds (i + 4) (out ++ [(i, 4)])
          else startCodesLoop buf rounds (i + 1) out
        else startCodesLoop buf rounds (i + 1) out
      else startCodesLoop buf rounds (i + 1) out
    else .ok out

/-- `start_codes`. -/
def startCodes (buf : List UInt8) : Guarded String (List (Nat × Nat)) :=
  startCodesLoop buf (buf.length + 1) 0 []

/-- `decrypt_one_nal`. -/
def decryptOneNal (dec : SampleDecryptor) (nal : List UInt8) : Guarded String (List UInt8) := do
  let head ← index nal 0
  let nalType := head.toNat % 32
  if (nalType ≠ 1 ∧ nalType ≠ 5) ∨ nal.length ≤ h264MinEncryptedNal then .ok nal
  else
    let clean := removeEmulationPrevention nal
    if clean.length ≤ h264MinEncryptedNal then .ok nal
    else do
      let secret ← sliceFrom clean 32
      let secret ← dec.decryptBlock secret h264Skip false
      let clean ← overwrite clean 32 secret
      .ok (addEmulationPrevention clean)

/-- The loop of `decrypt_h264_payload` over the start codes. -/
def nalLoop (dec : SampleDecryptor) (payload : List UInt8) :
    List (Nat × Nat) → Guarded String (List UInt8)
  | [] => .ok []
  | (codeOff, codeLen) :: codes => do
    let nalStart := codeOff + codeLen
    let nalEnd := (codes.head?.map Prod.fst).getD payload.length
    let code ← slice payload codeOff nalStart
    if nalEnd ≤ nalStart then do
      let rest ← nalLoop dec payload codes
      .ok (code ++ rest)
    else do
      let nal ← slice payload nalStart nalEnd
      let nal ← decryptOneNal dec nal
      let rest ← nalLoop dec payload codes
      .ok (code ++ nal ++ rest)

/-- `decrypt_h264_payload`. -/
def decryptH264Payload (dec : SampleDecryptor) (payload : List UInt8) :
    Guarded String (List UInt8) := do
  let starts ← startCodes payload
  if starts.isEmpty then .ok payload else nalLoop dec payload starts

/-! ## AAC -/

/-- `AAC_CLEAR_AFTER_HEADER`. -/
def aacClearAfterHeader : Nat := 16

/-- The length of an ADTS frame, in three bytes. -/
def frameLength (b3 b4 b5 : UInt8) : Nat := b3.toNat % 4 * 2048 + b4.toNat * 8 + b5.toNat / 32

/-- A frame without its header and what is clear behind it, its whole blocks decrypted. -/
def decryptFrame (dec : SampleDecryptor) (payload : List UInt8) (pos headerLen frameLen : Nat) :
    Guarded String (List UInt8) :=
  let encStart := pos + headerLen + aacClearAfterHeader
  if headerLen + aacClearAfterHeader < frameLen ∧ encStart < pos + frameLen then do
    let behind ← sub frameLen headerLen
    let avail ← sub behind aacClearAfterHeader
    let encLen := avail / 16 * 16
    if 0 < encLen then do
      let secret ← slice payload encStart (encStart + encLen)
      let secret ← dec.decryptBlock secret 0 true
      overwrite payload encStart secret
    else .ok payload
  else .ok payload

/-- The loop of `decrypt_aac_payload`: the payload and the frames that were found. -/
def frameLoop (dec : SampleDecryptor) :
    Nat → List UInt8 → Nat → Nat → Guarded String (List UInt8 × Nat)
  | 0, _, _, _ => .error .endless
  | rounds + 1, payload, pos, frames =>
    if pos + 7 ≤ payload.length then do
      let b0 ← index payload pos
      let b1 ← index payload (pos + 1)
      if b0 ≠ 0xFF ∨ b1.toNat / 16 ≠ 15 then frameLoop dec rounds payload (pos + 1) frames
      else do
        let headerLen := if b1.toNat % 2 = 1 then 7 else 9
        let b3 ← index payload (pos + 3)
        let b4 ← index payload (pos + 4)
        let b5 ← index payload (pos + 5)
        let frameLen := frameLength b3 b4 b5
        if frameLen = 0 ∨ payload.length < pos + frameLen then .ok (payload, frames)
        else do
          let payload ← decryptFrame dec payload pos headerLen frameLen
          frameLoop dec rounds payload (pos + frameLen) (frames + 1)
    else .ok (payload, frames)

/-- `decrypt_aac_payload`. -/
def decryptAacPayload (dec : SampleDecryptor) (payload : List UInt8) :
    Guarded String (List UInt8) := do
  let (payload, frames) ← frameLoop dec (payload.length + 1) payload 0 0
  if frames = 0 then fail "SAMPLE-AES(TS)：AAC 净荷里找不到 ADTS 帧" else .ok payload

/-! ## A segment -/

/-- `StreamType`. -/
inductive StreamType where
  | h264
  | aacAdts
  | unsupported (raw : UInt8)

/-- `StreamType::of`. -/
def StreamType.of (raw : UInt8) : StreamType :=
  if raw = 0x1B then .h264 else if raw = 0x0F then .aacAdts else .unsupported raw

/-- A digit of `{:02X}`. -/
def hexDigit (n : Nat) : Char := "0123456789ABCDEF".toList.getD n '0'

/-- `StreamType::name`. -/
def StreamType.name : StreamType → String
  | .h264 => "H.264"
  | .aacAdts => "AAC"
  | .unsupported raw =>
    "stream_type=0x" ++ String.ofList [hexDigit (raw.toNat / 16), hexDigit (raw.toNat % 16)]

/-- The payload of a PES, decrypted as its stream type asks for. -/
def decryptPayload (dec : SampleDecryptor) (payload : List UInt8) :
    StreamType → Guarded String (List UInt8)
  | .h264 => decryptH264Payload dec payload
  | .aacAdts => decryptAacPayload dec payload
  | .unsupported raw =>
    let name := (StreamType.unsupported raw).name
    fail s!"SAMPLE-AES 暂不支持该 TS 流里的 {name}（只支持 H.264 与 AAC）"

/-- The loop over the PES packets of a segment. -/
def decryptAll (dec : SampleDecryptor) (streams : Streams) : List Pes → Guarded String (List Pes)
  | [] => .ok []
  | pes :: list => do
    let raw ← expect (lookup pes.pid streams)
    let payload ← decryptPayload dec pes.payload (.of raw)
    let rest ← decryptAll dec streams list
    .ok ({ pes with payload } :: rest)

/-- `decrypt_sample_aes_ts`. -/
def decryptSampleAesTs (aes : BlockCipher) (data key : List UInt8) (iv : Octets 16) :
    Guarded String (List UInt8) :=
  if data.length < tsPacket ∨ data.length % tsPacket ≠ 0 then
    let length := data.length
    fail s!"SAMPLE-AES(TS) 分片长度 {length} 不是 188 的整数倍"
  else do
    let sync ← index data 0
    if sync ≠ tsSync then fail "SAMPLE-AES(TS) 分片缺少 TS 同步字节"
    else do
      let (pmtPid, streams) ← scanTables data
      let list ← reassemblePes data streams
      if list.isEmpty then fail "SAMPLE-AES(TS) 分片里没有可识别的 PES 包"
      else do
        let dec ← SampleDecryptor.new aes key iv
        let list ← decryptAll dec streams list
        remuxTs data pmtPid list

end XferRust.Playlist
