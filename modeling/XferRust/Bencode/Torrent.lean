import XferRust.Bencode.Root

/-! # Torrents

`parse_torrent` and `parse_info_bytes`.  The hash function and the decoding of file names, which
come from other crates, are parameters; nothing is assumed of them.
-/
namespace XferRust.Bencode
open SortedMap (lookup)

/-! ## Access to values -/

def Value.asInt : Value → Option Int64
  | .int i => some i
  | _ => none

def Value.asBytes : Value → Option (List UInt8)
  | .bytes b => some b
  | _ => none

def Value.asStr (v : Value) : Option String := v.asBytes.bind fun b => String.fromUTF8? ⟨b.toArray⟩

def Value.asList : Value → Option (List Value)
  | .list items => some items
  | _ => none

def Value.asDict : Value → Option (List (Key × Value))
  | .dict entries => some entries
  | _ => none

/-- `Option::ok_or_else`. -/
def okOr {α : Type} (x : Option α) (err : String) : Except String α :=
  match x with
  | none => .error err
  | some a => .ok a

/-- The text of an error. -/
def BencodeError.message : BencodeError → String
  | .unexpectedEof offset => s!"输入在偏移 {offset} 处提前结束"
  | .invalidToken offset byte =>
    let hex := String.ofList [(byte.toNat / 16).digitChar, (byte.toNat % 16).digitChar]
    s!"偏移 {offset} 处非法字符 0x{hex}"
  | .invalidInteger offset => s!"偏移 {offset} 处整数格式非法"
  | .invalidLength offset => s!"偏移 {offset} 处字符串长度非法"
  | .lengthOverflow _ len remaining => s!"长度 {len} 超出输入剩余 {remaining} 字节"
  | .depthLimit limit => s!"嵌套层级过深（超过 {limit}）"
  | .trailingData remaining => s!"解析完成后仍有 {remaining} 字节尾随数据"

/-! ## The keys -/

/-- `b"info"`. -/
abbrev infoKey : Key := [105, 110, 102, 111]
/-- `b"announce"`. -/
abbrev announceKey : Key := [97, 110, 110, 111, 117, 110, 99, 101]
/-- `b"announce-list"`. -/
abbrev announceListKey : Key := [97, 110, 110, 111, 117, 110, 99, 101, 45, 108, 105, 115, 116]
/-- `b"comment"`. -/
abbrev commentKey : Key := [99, 111, 109, 109, 101, 110, 116]
/-- `b"created by"`. -/
abbrev createdByKey : Key := [99, 114, 101, 97, 116, 101, 100, 32, 98, 121]
/-- `b"creation date"`. -/
abbrev creationDateKey : Key := [99, 114, 101, 97, 116, 105, 111, 110, 32, 100, 97, 116, 101]
/-- `b"name"`. -/
abbrev nameKey : Key := [110, 97, 109, 101]
/-- `b"name.utf-8"`. -/
abbrev nameUtf8Key : Key := [110, 97, 109, 101, 46, 117, 116, 102, 45, 56]
/-- `b"piece length"`. -/
abbrev pieceLengthKey : Key := [112, 105, 101, 99, 101, 32, 108, 101, 110, 103, 116, 104]
/-- `b"pieces"`. -/
abbrev piecesKey : Key := [112, 105, 101, 99, 101, 115]
/-- `b"private"`. -/
abbrev privateKey : Key := [112, 114, 105, 118, 97, 116, 101]
/-- `b"length"`. -/
abbrev lengthKey : Key := [108, 101, 110, 103, 116, 104]
/-- `b"files"`. -/
abbrev filesKey : Key := [102, 105, 108, 101, 115]
/-- `b"path"`. -/
abbrev pathKey : Key := [112, 97, 116, 104]
/-- `b"path.utf-8"`. -/
abbrev pathUtf8Key : Key := [112, 97, 116, 104, 46, 117, 116, 102, 45, 56]

/-! ## The `info` dictionary -/

structure FileEntry where
  path : List String
  length : UInt64

structure Info where
  name : String
  pieceLength : UInt64
  /-- The hashes of the pieces, of 20 bytes each. -/
  pieces : List (List UInt8)
  files : List FileEntry
  multiFile : Bool
  private_ : Bool

/-- `sanitize_segment`. -/
def sanitizeSegment (seg : String) : String :=
  if seg.toList.contains '\x00' then "_"
  else
    let cleaned := String.ofList (seg.toList.map fun c =>
      if c = '/' || c = '\\' || c = ':' then '_' else c)
    if cleaned = "" || cleaned = "." || cleaned = ".." then "_" else cleaned

/-- `slice::split` at the zero bytes. -/
def splitZero : List UInt8 → List (List UInt8)
  | [] => [[]]
  | b :: bs =>
    if b = 0 then [] :: splitZero bs
    else
      match splitZero bs with
      | [] => [[b]]
      | part :: parts => (b :: part) :: parts

/-- `slice::chunks_exact` for 20 bytes. -/
def chunks20 (raw : List UInt8) : List (List UInt8) :=
  (List.range (raw.length / 20)).map fun i => (raw.drop (20 * i)).take 20

section
variable {Hash : Type} (sha1 : List UInt8 → Hash) (decodeText : List UInt8 → String)

/-- An entry of the list under `files`. -/
def parseFile (f : Value) : Except String FileEntry := do
  let fd ← okOr f.asDict "files 条目必须是字典"
  let length ← okOr (((lookup lengthKey fd).bind Value.asInt).filter fun n => 0 ≤ n.toInt)
    "文件条目缺少合法 length"
  let items ← okOr (((lookup pathUtf8Key fd).or (lookup pathKey fd)).bind Value.asList)
    "文件条目缺少 path"
  let raw := (items.filterMap Value.asBytes).flatMap fun b => b ++ [0]
  let parts := ((splitZero raw).filter fun part => !part.isEmpty).map fun part =>
    sanitizeSegment (decodeText part)
  if parts.isEmpty then .error "文件条目 path 为空"
  else .ok { path := parts, length := length.toUInt64 }

/-- The files, and whether they come from a list. -/
def parseFiles (dict : List (Key × Value)) (name : String) :
    Except String (List FileEntry × Bool) :=
  match (lookup lengthKey dict).bind Value.asInt with
  | some len =>
    if len.toInt < 0 then .error "文件长度不能为负"
    else .ok ([{ path := [name], length := len.toUInt64 }], false)
  | none => do
    let items ← okOr ((lookup filesKey dict).bind Value.asList) "info 既无 length 也无 files"
    let files ← items.mapM (parseFile decodeText)
    .ok (files, true)

/-- `parse_info`. -/
def parseInfo (v : Value) : Except String Info := do
  let dict ← okOr v.asDict "info 必须是字典"
  let rawName ← okOr (((lookup nameUtf8Key dict).or (lookup nameKey dict)).bind Value.asBytes)
    "info 缺少 name"
  let name := sanitizeSegment (decodeText rawName)
  let pieceLength ← okOr
    (((lookup pieceLengthKey dict).bind Value.asInt).filter fun n => 0 < n.toInt)
    "info 缺少合法的 piece length"
  let piecesRaw ← okOr ((lookup piecesKey dict).bind Value.asBytes) "info 缺少 pieces"
  if piecesRaw.length % 20 ≠ 0 then
    let len := piecesRaw.length
    .error s!"pieces 长度 {len} 不是 20 的倍数"
  else
    let isPrivate := (((lookup privateKey dict).bind Value.asInt).map fun n => n != 0).getD false
    let (files, multiFile) ← parseFiles decodeText dict name
    .ok
      { name, pieceLength := pieceLength.toUInt64, pieces := chunks20 piecesRaw, files, multiFile
        private_ := isPrivate }

/-! ## The torrent -/

structure TorrentMeta (Hash : Type) where
  info : Info
  infoHash : Hash
  announce : Option String
  announceList : List (List String)
  comment : Option String
  createdBy : Option String
  creationDate : Option Int64
  rawBencode : Option (List UInt8)
  rawInfo : Option (List UInt8)

/-- `parse_torrent`.  What `parse_root` returns is a dictionary. -/
def parseTorrent (bytes : List UInt8) : Except String (TorrentMeta Hash) := do
  let (dict, ranges) ← (parseRoot bytes).mapError fun e => "bencode 解析失败: " ++ e.message
  let range ← okOr (lookup infoKey ranges) "缺少 info 字典"
  let infoBytes := slice bytes range.1 range.2
  let v ← okOr (lookup infoKey dict) "缺少 info 字典"
  let info ← parseInfo decodeText v
  .ok
    { info
      infoHash := sha1 infoBytes
      announce := (lookup announceKey dict).bind Value.asStr
      announceList := (((lookup announceListKey dict).bind Value.asList).map fun tiers =>
        tiers.filterMap fun t => t.asList.map fun urls => urls.filterMap Value.asStr).getD []
      comment := (lookup commentKey dict).bind Value.asStr
      createdBy := (lookup createdByKey dict).bind Value.asStr
      creationDate := (lookup creationDateKey dict).bind Value.asInt
      rawBencode := some bytes
      rawInfo := some infoBytes }

/-- What is known of a torrent without its trackers. -/
def TorrentMeta.ofInfo (info : Info) (bytes : List UInt8) : TorrentMeta Hash where
  info := info
  infoHash := sha1 bytes
  announce := none
  announceList := []
  comment := none
  createdBy := none
  creationDate := none
  rawBencode := none
  rawInfo := some bytes

/-- `parse_info_bytes`. -/
def parseInfoBytes (bytes : List UInt8) : Except String (TorrentMeta Hash) := do
  let (top, consumed) ← (decodePrefix bytes).mapError fun e => "info 解析失败: " ++ e.message
  if consumed ≠ bytes.length then .error "info 字典后存在尾随数据"
  else do
    let info ← parseInfo decodeText top
    .ok (.ofInfo sha1 info bytes)

/-! ## The hash covers what is used -/

theorem mapError_ok {α : Type} {x : Except BencodeError α} {f : BencodeError → String} {a : α} :
    x.mapError f = .ok a ↔ x = .ok a := by
  cases x with
  | error e => exact ⟨nofun, nofun⟩
  | ok b => exact ⟨fun h => congrArg Except.ok (Except.ok.inj h),
      fun h => congrArg Except.ok (Except.ok.inj h)⟩

theorem okOr_ok {α : Type} {x : Option α} {err : String} {a : α} :
    okOr x err = .ok a ↔ x = some a := by
  cases x with
  | none => exact ⟨nofun, nofun⟩
  | some b => exact ⟨fun h => congrArg some (Except.ok.inj h),
      fun h => congrArg Except.ok (Option.some.inj h)⟩

/-- What a parsed torrent has been parsed from. -/
theorem parseTorrent_ok {s : List UInt8} {m : TorrentMeta Hash}
    (h : parseTorrent sha1 decodeText s = .ok m) :
    ∃ dict ranges range v, parseRoot s = .ok (dict, ranges) ∧ lookup infoKey ranges = some range ∧
      lookup infoKey dict = some v ∧ parseInfo decodeText v = .ok m.info ∧
      m.infoHash = sha1 (slice s range.1 range.2) ∧
      m.rawInfo = some (slice s range.1 range.2) := by
  obtain ⟨⟨dict, ranges⟩, hroot, h⟩ := except_bind_ok.mp h
  obtain ⟨range, hrange, h⟩ := except_bind_ok.mp h
  obtain ⟨v, hv, h⟩ := except_bind_ok.mp h
  obtain ⟨info, hinfo, h⟩ := except_bind_ok.mp h
  obtain rfl := Except.ok.inj h
  exact ⟨dict, ranges, range, v, mapError_ok.mp hroot, okOr_ok.mp hrange, okOr_ok.mp hv, hinfo,
    rfl, rfl⟩

/-- A text that `decode` reads is one that `decode_prefix` reads to its end. -/
theorem decodePrefix_of_decode {s : List UInt8} {v : Value} (h : decode s = .ok v) :
    decodePrefix s = .ok (v, s.length) := by
  obtain ⟨t, hvalid, hdepth, rfl, rfl⟩ := decode_ok_iff.mp h
  have := decodePrefix_text hvalid hdepth []
  rwa [List.append_nil] at this

theorem parseInfoBytes_of_decode {s : List UInt8} {v : Value} {info : Info}
    (h : decode s = .ok v) (hinfo : parseInfo decodeText v = .ok info) :
    parseInfoBytes sha1 decodeText s = .ok (.ofInfo sha1 info s) := by
  refine except_bind_ok.mpr ⟨_, mapError_ok.mpr (decodePrefix_of_decode h), ?_⟩
  dsimp only
  rw [if_neg (fun hne => hne rfl)]
  exact except_bind_ok.mpr ⟨info, hinfo, rfl⟩

/-- **Two parsers, one format.**  `parse_root` succeeds with the map of `decode`, on the same
inputs; the range under a key is that of the value of its last entry; and so the hash of a torrent
covers the bytes of the `info` value it was parsed from, which alone give the same `Info` and the
same hash. -/
theorem parseRoot_agrees (s : List UInt8) :
    (∀ dict, (∃ ranges, parseRoot s = .ok (dict, ranges)) ↔ decode s = .ok (.dict dict)) ∧
      (∀ dict ranges, parseRoot s = .ok (dict, ranges) →
        ∃ es, (Tree.dict es).Valid ∧ (Tree.dict es).text = s ∧
          ∀ k, (lookup k ranges).isSome = (lookup k dict).isSome ∧
            ∀ range, lookup k ranges = some range → RangeAt s es dict k range) ∧
      ∀ m : TorrentMeta Hash, parseTorrent sha1 decodeText s = .ok m →
        ∃ infoBytes v, (∃ dict ranges range, parseRoot s = .ok (dict, ranges) ∧
            lookup infoKey ranges = some range ∧ lookup infoKey dict = some v ∧
            infoBytes = slice s range.1 range.2) ∧
          m.infoHash = sha1 infoBytes ∧ decode infoBytes = .ok v ∧
          parseInfo decodeText v = .ok m.info ∧
          ∃ m', parseInfoBytes sha1 decodeText infoBytes = .ok m' ∧ m'.info = m.info ∧
            m'.infoHash = m.infoHash := by
  refine ⟨fun dict => parseRoot_iff_decode, fun dict ranges => parseRoot_ranges, fun m hm => ?_⟩
  obtain ⟨dict, ranges, range, v, hroot, hrange, hv, hinfo, hhash, -⟩ :=
    parseTorrent_ok sha1 decodeText hm
  obtain ⟨es, -, -, hkeys⟩ := parseRoot_ranges hroot
  obtain ⟨w, hw, hdecode⟩ := ((hkeys infoKey).2 range hrange).decodes
  obtain rfl := Option.some.inj (hv.symm.trans hw)
  have hbytes := parseInfoBytes_of_decode sha1 decodeText hdecode hinfo
  exact ⟨_, v, ⟨dict, ranges, range, hroot, hrange, hv, rfl⟩, hhash, hdecode, hinfo, _, hbytes,
    rfl, hhash.symm⟩

end

end XferRust.Bencode
