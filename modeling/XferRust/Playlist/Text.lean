import XferRust.Lib.StepRun
import XferRust.Lib.Utf8Slice
import XferRust.Playlist.Media

/-! # The text of a playlist

Playlists come from anywhere and in any script.  Their lines are trimmed and taken apart by
characters; at two places the code cuts a text at a byte, the first five bytes of an address and
the first two of a vector, and a cut inside a character panics, as does a sum that is no 64-bit
number.  `none` is such a panic throughout this module.

Resolving an address against the playlist's own (`Url::join`) and reading a duration are taken as
parameters.
-/
namespace XferRust.Playlist

open StepRun Utf8Slice

/-! ## Characters -/

/-- `char::is_whitespace`. -/
def isWhitespace (c : Char) : Bool :=
  let n := c.toNat
  (9 ≤ n && n ≤ 13) || n = 32 || n = 133 || n = 160 || n = 5760 || (8192 ≤ n && n ≤ 8202) ||
    n = 8232 || n = 8233 || n = 8239 || n = 8287 || n = 12288

/-- `char::is_control`. -/
def isControl (c : Char) : Bool := c.toNat < 32 || (127 ≤ c.toNat && c.toNat < 160)

/-- `trim_start`. -/
def trimStart (l : List Char) : List Char := l.dropWhile isWhitespace

/-- `trim`. -/
def trim (l : List Char) : List Char :=
  ((trimStart l).reverse.dropWhile isWhitespace).reverse

/-- `trim_matches('"')`. -/
def trimQuotes (l : List Char) : List Char :=
  ((l.dropWhile (· = '"')).reverse.dropWhile (· = '"')).reverse

/-- `clean_text`. -/
def cleanText (l : List Char) : List Char := trim (l.dropWhile (· = '\uFEFF'))

/-- The lines of a cleaned text; a carriage return goes when a line is trimmed. -/
def textLines (l : List Char) : List (List Char) := (cleanText l).splitOn '\n'

/-- `strip_prefix`. -/
def stripTag (tag : String) (l : List Char) : Option (List Char) :=
  if tag.toList.isPrefixOf l then some (l.drop tag.toList.length) else none

/-- `to_ascii_uppercase`. -/
def upper (l : List Char) : List Char := l.map Char.toUpper

/-- `to_ascii_lowercase`. -/
def lower (l : List Char) : List Char := l.map Char.toLower

/-- `contains`. -/
def containsText (pattern : String) (l : List Char) : Bool :=
  l.tails.any fun t => pattern.toList.isPrefixOf t

/-- `split_once`. -/
def splitOnce (c : Char) (l : List Char) : Option (List Char × List Char) :=
  if l.contains c then some (l.takeWhile (· ≠ c), (l.dropWhile (· ≠ c)).drop 1) else none

/-! ## Numbers -/

/-- One more than the greatest 64-bit number. -/
def wordSize : Nat := 18446744073709551616

/-- `parse::<u64>`. -/
def parseU64 (l : List Char) : Option Nat :=
  let digits := if l.head? = some '+' then l.drop 1 else l
  if digits ≠ [] ∧ digits.all Char.isDigit then
    let n := digits.foldl (fun n c => 10 * n + (c.toNat - 48)) 0
    if n < wordSize then some n else none
  else none

/-- `parse_byterange`: the length, and the offset if there is one. -/
def parseByterange (v : List Char) : Option (Nat × Option Nat) :=
  let v := trim v
  match splitOnce '@' v with
  | some (len, off) => do
    let len ← parseU64 (trim len)
    let off ← parseU64 (trim off)
    some (len, some off)
  | none => (parseU64 v).map fun len => (len, none)

/-! ## Attributes -/

/-- `split_attributes`: at the commas that are not quoted. -/
def splitAttributes (s : List Char) : List (List Char) :=
  let r := s.foldl
    (fun (r : List (List Char) × List Char × Bool) ch =>
      if ch = '"' then (r.1, r.2.1 ++ [ch], !r.2.2)
      else if ch = ',' ∧ r.2.2 = false then (r.1 ++ [r.2.1], [], r.2.2)
      else (r.1, r.2.1 ++ [ch], r.2.2))
    ([], [], false)
  if trim r.2.1 = [] then r.1 else r.1 ++ [r.2.1]

/-- `parse_attributes`. -/
def parseAttributes (s : List Char) : List (List Char × List Char) :=
  (splitAttributes s).filterMap fun part =>
    match splitOnce '=' part with
    | none => none
    | some (k, v) =>
      let k := upper (trim k)
      if k = [] then none else some (k, trimQuotes (trim v))

/-- `attr`. -/
def attr (attrs : List (List Char × List Char)) (key : String) : Option (List Char) :=
  (attrs.find? fun kv => decide (kv.1 = key.toList)).map Prod.snd

/-- `attr_bool`. -/
def attrBool (attrs : List (List Char × List Char)) (key : String) : Bool :=
  (attr attrs key).any fun v => lower (trim v) = "yes".toList

/-! ## Addresses and vectors -/

section

variable (join : String → Option String)

/-- Whether the first `n` bytes of a longer text are `head`, in either case of its letters. -/
def headIs (n : Nat) (head : String) (l : List Char) : Option Bool :=
  if byteLen l > n then (sliceTo n l).map fun front => decide (lower front = head.toList)
  else some false

/-- `resolve_url`: the outer none is a panic, the inner one an address that cannot be resolved. -/
def resolveUrl (uri : List Char) : Option (Option String) :=
  let uri := trim uri
  if uri = [] then some none
  else do
    let inline ← headIs 5 "data:" uri
    if inline then some (some (String.ofList uri))
    else
      match join (String.ofList uri) with
      | some u => some (some u)
      | none =>
        some (if "http".toList.isPrefixOf uri then some (String.ofList uri) else none)

/-- `is_ascii_hexdigit`. -/
def isAsciiHexDigit (c : Char) : Bool :=
  c.isDigit || ('a' ≤ c && c ≤ 'f') || ('A' ≤ c && c ≤ 'F')

/-- `to_digit(16)` of a hexadecimal digit. -/
def hexValue (c : Char) : Nat :=
  if c.isDigit then c.toNat - 48 else if 97 ≤ c.toNat then c.toNat - 87 else c.toNat - 55

/-- The bytes of an even number of digits. -/
def hexBytes : List Char → List UInt8
  | hi :: lo :: rest => UInt8.ofNat (hexValue hi * 16 + hexValue lo) :: hexBytes rest
  | _ => []

/-- `parse_iv`: the outer none is a panic, the inner one a vector that is none. -/
def parseIv (v : List Char) : Option (Option (List UInt8)) := do
  let hex := trim v
  let marked ← headIs 2 "0x" hex
  let hex := trim (if marked then hex.drop 2 else hex)
  if hex = [] ∨ byteLen hex > 32 ∨ ¬ hex.all isAsciiHexDigit then some none
  else
    let hex := if hex.length % 2 ≠ 0 then '0' :: hex else hex
    let bytes := hexBytes hex
    some (some (List.replicate (16 - bytes.length) 0 ++ bytes))

/-! ## Keys -/

/-- `KeyMethod::parse`; none for what is not known. -/
def KeyMethod.parse (raw : List Char) : Option KeyMethod :=
  let v := String.ofList (upper (trim raw))
  if v = "" ∨ v = "NONE" then some .none
  else if v = "AES-128" then some .aes128
  else if v = "AES-256" then some .aes256
  else if v = "AES-128-CTR" ∨ v = "AES-CTR" then some .aes128Ctr
  else if v = "SAMPLE-AES" then some .sampleAes
  else if v = "SAMPLE-AES-CTR" then some .sampleAesCtr
  else none

/-- `KeyFormat::parse`. -/
def KeyFormat.parse (raw : Option (List Char)) : KeyFormat :=
  match raw with
  | none => .identity
  | some v =>
    let v := trim v
    let low := lower v
    if low = [] ∨ low = "identity".toList then .identity
    else if containsText "streamingkeydelivery" low || containsText "fairplay" low then .fairPlay
    else if containsText "edef8ba9" low || containsText "widevine" low then .widevine
    else if containsText "playready" low || containsText "9a04f079" low then .playReady
    else .other (String.ofList v)

/-- `drm_reason`. -/
def KeyFormat.drmReason : KeyFormat → Option String
  | .fairPlay => some "Apple FairPlay"
  | .widevine => some "Google Widevine"
  | .playReady => some "Microsoft PlayReady"
  | .identity => none
  | .other _ => none

/-! ## Lines of a media playlist -/

/-- A line whose tag and attributes are taken apart, before its address and its vector are cut. -/
inductive RawLine where
  | plain (l : Line)
  | key (uri : List Char) (iv : Option (List Char)) (method : KeyMethod) (keyFormat : KeyFormat)
  /-- With the byte range, if there is one, as it is written. -/
  | map (uri : List Char) (range : Option (List Char))
  | part (uri : List Char) (millis : Nat)
  | address (uri : List Char)

/-- A line with `EXT-X-KEY`. -/
def scanKey (rest : List Char) : RawLine :=
  let attrs := parseAttributes rest
  let rawMethod := (attr attrs "METHOD").getD "NONE".toList
  match KeyMethod.parse rawMethod with
  | none =>
    .plain (.fatal ("清单用了无法识别的加密方式 METHOD=" ++ String.ofList rawMethod ++
      "（既不是标准取值，也不是已知的方言），无法解密"))
  | some .none => .plain (.key none)
  | some method =>
    let keyFormat := KeyFormat.parse (attr attrs "KEYFORMAT")
    match keyFormat.drmReason with
    | some drm =>
      .plain (.fatal ("该视频使用 " ++ drm ++ " 数字版权保护（DRM）：密钥由授权服务器下发，" ++
        "不登录、没有设备证书就换不到，无法解密。请改用能正常播放它的官方客户端。"))
    | none =>
      match (attr attrs "URI").filter fun u => trim u ≠ [] with
      | none => .plain (.key none)
      | some uri => .key uri ((attr attrs "IV").filter fun v => trim v ≠ []) method keyFormat

variable (millisOf : List Char → Nat)

/-- A trimmed line that is not empty, tag by tag. -/
def scanLine (line : List Char) : RawLine :=
  match stripTag "#EXT-X-MEDIA-SEQUENCE:" line with
  | some rest => .plain (.mediaSequence ((parseU64 (trim rest)).getD 0))
  | none =>
  match stripTag "#EXT-X-KEY:" line with
  | some rest => scanKey rest
  | none =>
  match stripTag "#EXT-X-MAP:" line with
  | some rest =>
    let attrs := parseAttributes rest
    match attr attrs "URI" with
    | none => .plain (.fatal "EXT-X-MAP 缺少 URI")
    | some uri => .map uri (attr attrs "BYTERANGE")
  | none =>
  match stripTag "#EXTINF:" line with
  | some rest => .plain (.extinf (millisOf (trim (rest.takeWhile (· ≠ ',')))))
  | none =>
  match stripTag "#EXT-X-BYTERANGE:" line with
  | some rest =>
    match parseByterange rest with
    | some (len, off) => .plain (.byteRange len off)
    | none => .plain (.fatal ("EXT-X-BYTERANGE 非法：" ++ String.ofList rest))
  | none =>
  match stripTag "#EXT-X-PART:" line with
  | some rest =>
    let attrs := parseAttributes rest
    match attr attrs "URI" with
    | none => .plain .other
    | some uri => .part uri (((attr attrs "DURATION").map fun v => millisOf (trim v)).getD 0)
  | none =>
  if line = "#EXT-X-ENDLIST".toList then .plain .endList
  else if line = "#EXT-X-GAP".toList then .plain .gap
  else if line.head? = some '#' then .plain .other
  else .address line

/-- The addresses and the vector of a line; none for a panic. -/
def RawLine.read : RawLine → Option Line
  | .plain l => some l
  | .key uri iv method keyFormat => do
    match ← resolveUrl join uri with
    | none => some (.fatal ("密钥地址无法解析：" ++ String.ofList uri))
    | some url =>
      match iv with
      | none => some (.key (some { url, iv := none, method, keyFormat }))
      | some v =>
        match ← parseIv v with
        | some bytes => some (.key (some { url, iv := some bytes, method, keyFormat }))
        | none => some (.fatal ("EXT-X-KEY 的 IV 不是合法十六进制：" ++ String.ofList v))
  | .map uri range => do
    match ← resolveUrl join uri with
    | none => some (.fatal ("初始化段地址无法解析：" ++ String.ofList uri))
    | some url =>
      match range with
      | none => some (.map url none)
      | some v =>
        match parseByterange v with
        | some (len, off) => some (.map url (some (off.getD 0, len)))
        | none => some (.fatal ("EXT-X-MAP 的 BYTERANGE 非法：" ++ String.ofList v))
  | .part uri millis => do
    match ← resolveUrl join uri with
    | none => some .other
    | some url => some (.part url millis)
  | .address uri => do
    match ← resolveUrl join uri with
    | none => some (.fatal ("分片地址无法解析：" ++ String.ofList uri))
    | some url => some (.uri url)

/-- The sums of a line are 64-bit numbers: the next number, and the end of the range. -/
def MediaParser.fits (m : MediaParser) : Line → Bool
  | .uri url =>
    decide (m.sequence + 1 < wordSize) &&
      (m.nextIsGap || m.nextRange.all fun r => decide (m.rangeStart url r.2 + r.1 < wordSize))
  | _ => true

/-- One line of the text of a media playlist. -/
def mediaStep (m : MediaParser) (raw : List Char) : Option MediaParser :=
  let line := trim raw
  if line = [] then some m
  else do
    let l ← (scanLine millisOf line).read join
    if m.fits l then some (m.line l) else none

/-- `parse_media`. -/
def parseMediaText (text : List Char) : Option MediaParser :=
  run (mediaStep join millisOf) {} (textLines text)

/-- The segments that `parse_media` returns: the initialisation segment, and the segments or, where
there are none, the parts. -/
def MediaParser.result (m : MediaParser) : List Segment :=
  m.init.toList ++ if m.segments.isEmpty && !m.parts.isEmpty then m.parts else m.segments

/-- The last byte that is asked for of a range (`fetch_body_inner`). -/
def rangeEnd (r : Nat × Nat) : Option Nat :=
  if r.1 + (r.2 - 1) < wordSize then some (r.1 + (r.2 - 1)) else none

/-! ## Lines of a master playlist -/

structure Variant where
  url : String
  bandwidth : Nat
  avgBandwidth : Nat
  area : Nat
  audioGroup : Option String
  codecs : Option String

structure Rendition where
  kind : String
  groupId : String
  name : String
  language : Option String
  isDefault : Bool
  autoselect : Bool
  channels : Option String
  uri : Option String

/-- What the loop of `parse_master` carries from line to line. -/
structure MasterParser where
  variants : List Variant := []
  renditions : List Rendition := []
  /-- The attributes of `EXT-X-STREAM-INF`, for the address behind it. -/
  pending : Option (Nat × Nat × Nat × Option String × Option String) := none

/-- The width and the height of `RESOLUTION`. -/
def resolution (attrs : List (List Char × List Char)) : Option (Nat × Nat) := do
  let v ← attr attrs "RESOLUTION"
  let (w, h) ← splitOnce 'x' v
  let w ← parseU64 (trim w)
  let h ← parseU64 (trim h)
  some (w, h)

/-- The attribute, trimmed. -/
def attrText (attrs : List (List Char × List Char)) (key : String) : Option String :=
  (attr attrs key).map fun v => String.ofList (trim v)

/-- A line with `EXT-X-MEDIA`. -/
def MasterParser.addRendition (m : MasterParser) (rest : List Char) : Option MasterParser :=
  let attrs := parseAttributes rest
  let kind := String.ofList (upper (trim ((attr attrs "TYPE").getD [])))
  let groupId := (attrText attrs "GROUP-ID").getD ""
  if kind = "" ∨ groupId = "" then some m
  else do
    let uri ← match attr attrs "URI" with
      | none => some none
      | some u => resolveUrl join u
    some { m with
      renditions := m.renditions ++
        [{ kind, groupId, name := (attrText attrs "NAME").getD ""
           language := attrText attrs "LANGUAGE", isDefault := attrBool attrs "DEFAULT"
           autoselect := attrBool attrs "AUTOSELECT", channels := attrText attrs "CHANNELS"
           uri }] }

/-- A line with `EXT-X-STREAM-INF`. -/
def MasterParser.addStream (m : MasterParser) (rest : List Char) : Option MasterParser :=
  let attrs := parseAttributes rest
  let number (key : String) := ((attr attrs key).bind fun v => parseU64 (trim v)).getD 0
  do
    let area ← match resolution attrs with
      | none => some 0
      | some (w, h) => if w * h < wordSize then some (w * h) else none
    some { m with
      pending := some (number "BANDWIDTH", number "AVERAGE-BANDWIDTH", area,
        (attrText attrs "AUDIO").filter (· ≠ ""), attrText attrs "CODECS") }

/-- A line with an address. -/
def MasterParser.addVariant (m : MasterParser) (line : List Char) : Option MasterParser :=
  match m.pending with
  | none => some m
  | some (bandwidth, avgBandwidth, area, audioGroup, codecs) => do
    let m := { m with pending := none }
    match ← resolveUrl join line with
    | none => some m
    | some url =>
      some { m with
        variants := m.variants ++ [{ url, bandwidth, avgBandwidth, area, audioGroup, codecs }] }

/-- One line of the text of a master playlist. -/
def masterStep (m : MasterParser) (raw : List Char) : Option MasterParser :=
  let line := trim raw
  if line = [] then some m
  else
    match stripTag "#EXT-X-MEDIA:" line with
    | some rest => m.addRendition join rest
    | none =>
      match stripTag "#EXT-X-STREAM-INF:" line with
      | some rest => m.addStream rest
      | none => if line.head? = some '#' then some m else m.addVariant join line

/-- `parse_master`. -/
def parseMaster (text : List Char) : Option MasterParser :=
  run (masterStep join) {} (textLines text)

end

end XferRust.Playlist
