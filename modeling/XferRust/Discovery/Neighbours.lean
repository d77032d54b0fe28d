import XferRust.Dht.Compact
import XferRust.Lib.Faults
import XferRust.Lib.Hex
import XferRust.Playlist.Text

/-! # What the neighbours in a local network send

Three sockets are open to every host of the network: the one that looks for a gateway (SSDP), the
one that listens for other peers (LSD), and the one that asks the gateway for a port (NAT-PMP).
What is received ends when the time is up, so it is a list.  The gateway found is asked for its
device description, and the address to control it by is cut out of that text.

An address of a host is of any type `ι`.
-/
namespace XferRust.Discovery
open Guarded Utf8Slice
open Playlist (trim lower splitOnce)

variable {ι : Type}

/-! ## Text -/

/-- A line without the carriage return in front of its line feed. -/
def stripReturn (line : List Char) : List Char :=
  if line.getLast? = some '\r' then line.dropLast else line

/-- `lines`: what stands behind the last line feed is a line unless it is empty. -/
def lines (text : List Char) : List (List Char) :=
  let parts := text.splitOn '\n'
  parts.dropLast.map stripReturn ++ parts.getLast?.toList.filter fun last => last ≠ []

/-- `parse::<u16>`. -/
def parseU16 (text : List Char) : Option UInt16 :=
  let digits := if text.head? = some '+' then text.drop 1 else text
  if digits ≠ [] ∧ digits.all Char.isDigit then
    let n := digits.foldl (fun n c => 10 * n + (c.toNat - 48)) 0
    if n < 65536 then some (UInt16.ofNat n) else none
  else none

/-! ## SSDP -/

/-- `Igd`. -/
structure Igd (ι : Type) where
  location : List Char
  ip : ι
  deriving DecidableEq

/-- What is taken from one line of an answer. -/
def locationOf (line : List Char) : Guarded String (Option (List Char)) :=
  let line := trim line
  if 9 < byteLen line then do
    let head ← expect (sliceTo 9 line)
    if lower head = "location:".toList then do
      let rest ← expect (sliceFrom 9 line)
      return some (trim rest)
    else return none
  else return none

/-- The first location among the lines. -/
def findLocation : List (List Char) → Guarded String (Option (List Char))
  | [] => return none
  | line :: rest => do
    match ← locationOf line with
    | some location => return some location
    | none => findLocation rest

/-- The receive loop of `upnp_ssdp_discover`, with what is received and from whom until the time is
up.  Of a longer datagram the first 4096 bytes are received. -/
def upnpSsdpDiscover : List (List UInt8 × ι) → Guarded String (Igd ι)
  | [] => fail "SSDP 响应超时"
  | (datagram, source) :: more =>
    match fromUtf8 (datagram.take 4096) with
    | none => upnpSsdpDiscover more
    | some text => do
      match ← findLocation (lines text) with
      | some location => return { location := location, ip := source }
      | none => upnpSsdpDiscover more

/-! ## LSD -/

/-- What has been read of an announcement. -/
structure Announced where
  port : Option UInt16
  infoHashHex : Option (List Char)
  cookie : Option (List Char)

/-- One line of an announcement; `toLowercase` is that of all scripts. -/
def Announced.line (toLowercase : List Char → List Char) (a : Announced) (line : List Char) :
    Announced :=
  let line := trim line
  if line = [] then a
  else
    match splitOnce ':' line with
    | none => a
    | some (key, value) =>
      let key := toLowercase (trim key)
      let value := trim value
      if key = "port".toList then { a with port := parseU16 value }
      else if key = "infohash".toList then { a with infoHashHex := some (toLowercase value) }
      else if key = "cookie".toList then { a with cookie := some value }
      else a

/-- `InfoHash::from_hex`. -/
def infoHashFromHex (hex : List Char) : Option (Octets 20) := do
  let bytes ← Hex.decodeDigits hex
  if h : bytes.length = 20 then some ⟨bytes, h⟩ else none

/-- `parse_announce_message`. -/
def parseAnnounceMessage (toLowercase : List Char → List Char) (data : List UInt8)
    (target : Octets 20) (myCookie : List Char) : Guarded String (Option UInt16) :=
  match fromUtf8 data with
  | none => return none
  | some text =>
    if ¬"BT-SEARCH".toList <+: text then return none
    else
      let a := (lines text).foldl (Announced.line toLowercase) ⟨none, none, none⟩
      if a.cookie = some myCookie then return none
      else
        match a.infoHashHex.bind infoHashFromHex with
        | none => return none
        | some parsed => return if parsed = target then a.port else none

/-- The receive loop of `listen`: at most ten peers, each once. -/
def listen [DecidableEq ι] (toLowercase : List Char → List Char) (target : Octets 20)
    (cookie : List Char) :
    List (List UInt8 × ι) → List (ι × UInt16) → Guarded String (List (ι × UInt16))
  | [], found => return found
  | (datagram, source) :: more, found => do
    match ← parseAnnounceMessage toLowercase (datagram.take 1024) target cookie with
    | some port =>
      let found := if (source, port) ∈ found then found else found ++ [(source, port)]
      if 10 ≤ found.length then return found
      else listen toLowercase target cookie more found
    | none => listen toLowercase target cookie more found

/-! ## NAT-PMP -/

/-- `PortMappingProtocol`. -/
inductive PortMappingProtocol where
  | tcp | udp

/-- `nat_pmp_code`. -/
def PortMappingProtocol.natPmpCode : PortMappingProtocol → UInt16
  | .tcp => 2
  | .udp => 1

/-- `NatPortMapping`. -/
structure NatPortMapping where
  externalIp : Octets 4
  externalPort : UInt16
  internalPort : UInt16
  protocol : PortMappingProtocol
  lifetime : UInt32
  source : String

/-- `u16::from_be_bytes` of two bytes. -/
def u16At (data : List UInt8) (i : Nat) : Guarded String UInt16 := do
  let a ← index data i
  let b ← index data (i + 1)
  return BigEndian.toU16 a b

/-- `u32::from_be_bytes` of a slice. -/
def u32At (data : List UInt8) (i : Nat) : Guarded String UInt32 := do
  let bytes ← slice data i (i + 4)
  match bytes with
  | [a, b, c, d] => return BigEndian.toU32 a b c d
  | _ => .error .panic

/-- `NAT_PMP_VERSION`. -/
def natPmpVersion : UInt8 := 0

/-- `parse_nat_pmp_response`. -/
def parseNatPmpResponse (data : List UInt8) (expectedOp : UInt16) (internalPort : UInt16)
    (protocol : PortMappingProtocol) (externalIp : Octets 4) : Guarded String NatPortMapping :=
  if data.length < 16 then fail "NAT-PMP 映射响应过短"
  else do
    let version ← index data 0
    let op ← index data 1
    let resultCode ← u16At data 2
    let expected := 128 ||| expectedOp.toUInt8
    if version ≠ natPmpVersion then fail s!"NAT-PMP 版本不匹配: {version}"
    else if op ≠ expected then fail s!"NAT-PMP opcode 不匹配: 期望 {expected}, 实际 {op}"
    else if resultCode ≠ 0 then fail s!"NAT-PMP 错误码: {resultCode}"
    else do
      let mappedExternalPort ← u16At data 8
      let mappedLifetime ← u32At data 12
      return { externalIp, externalPort := mappedExternalPort, internalPort, protocol,
               lifetime := mappedLifetime, source := "nat-pmp" }

/-- What a buffer of `n` bytes holds after a datagram. -/
def received (n : Nat) (datagram : List UInt8) : List UInt8 :=
  (datagram ++ List.replicate n 0).take n

/-- The address in the answer to the first request. -/
def externalAddress (datagram : List UInt8) : Guarded String (Octets 4) :=
  if datagram.length < 12 then fail "NAT-PMP 外部地址响应过短"
  else do
    let buf := received 12 datagram
    let version ← index buf 0
    let op ← index buf 1
    let resultCode ← u16At buf 2
    if version ≠ natPmpVersion then fail s!"NAT-PMP 版本不匹配: {version}"
    else if op ≠ 0 then fail s!"NAT-PMP opcode 不匹配: {op}"
    else if resultCode ≠ 0 then fail s!"NAT-PMP 错误码: {resultCode}"
    else do
      let ip ← slice buf 8 12
      return .ofSlice 4 ip

/-- The exchange of `nat_pmp_map_port_to_addr`, by what is received for each of the two requests,
if anything is. -/
def natPmpMapPort (first second : Option (List UInt8)) (internalPort : UInt16)
    (protocol : PortMappingProtocol) : Guarded String NatPortMapping :=
  match first with
  | none => fail "NAT-PMP 外部地址响应超时"
  | some datagram => do
    let externalIp ← externalAddress datagram
    match second with
    | none => fail "NAT-PMP 响应超时"
    | some datagram =>
      parseNatPmpResponse (datagram.take 16) protocol.natPmpCode internalPort protocol externalIp

/-! ## The device description -/

/-- The origin of an address, and the path behind it. -/
def originOf (base : List Char) : Guarded String (List Char × List Char) :=
  match find "://".toList base with
  | none => return (base, [])
  | some schemeEnd => do
    let afterSchemeStart := schemeEnd + 3
    let after ← expect (sliceFrom afterSchemeStart base)
    match find ['/'] after with
    | none => return (base, [])
    | some i => do
      let split := afterSchemeStart + i
      let origin ← expect (sliceTo split base)
      let basePath ← expect (sliceFrom split base)
      return (origin, basePath)

/-- A path up to its last slash. -/
def dirOf (basePath : List Char) : Guarded String (List Char) :=
  match rfindChar '/' basePath with
  | some i => expect (sliceTo (i + 1) basePath)
  | none => return ['/']

/-- `join_url`. -/
def joinUrl (baseUrl path : List Char) : Guarded String (List Char) :=
  if "http://".toList <+: path ∨ "https://".toList <+: path then return path
  else do
    let base := (baseUrl.splitOn '#').headD baseUrl
    let (origin, basePath) ← originOf base
    if ['/'] <+: path then return origin ++ path
    else do
      let dir ← dirOf basePath
      return origin ++ dir ++ path

def openUrl : List Char := "<controlURL>".toList
def closeUrl : List Char := "</controlURL>".toList
def openService : List Char := "<service>".toList
def closeService : List Char := "</service>".toList

/-- `IGD_SERVICE_TYPES`. -/
def igdServiceTypes : List (List Char) :=
  ["urn:schemas-upnp-org:service:WANIPConnection:1".toList,
    "urn:schemas-upnp-org:service:WANPPPConnection:1".toList]

/-- One round of `extract_control_url`: the path for one type of service, if there is one. -/
def controlPath (desc serviceType : List Char) : Guarded String (Option (List Char)) :=
  match find serviceType desc with
  | none => return none
  | some stPos => do
    let after ← expect (sliceFrom stPos desc)
    let blockEnd := (find closeService after).getD (byteLen after)
    match find openUrl after with
    | none => return none
    | some ctrlStart =>
      if blockEnd < ctrlStart then return none
      else do
        let valueStart := ctrlStart + byteLen openUrl
        let rest ← expect (sliceFrom valueStart after)
        match find closeUrl rest with
        | none => return none
        | some ctrlEnd => do
          let value ← expect (Utf8Slice.slice valueStart (valueStart + ctrlEnd) after)
          let path := trim value
          if path = [] then return none else return some path

/-- The rounds of `extract_control_url`. -/
def extractLoop (desc baseUrl : List Char) :
    List (List Char) → Guarded String (List Char × List Char)
  | [] => fail "设备描述中未找到 WANIPConnection/WANPPPConnection 服务"
  | serviceType :: types => do
    match ← controlPath desc serviceType with
    | some path => do
      let url ← joinUrl baseUrl path
      return (url, serviceType)
    | none => extractLoop desc baseUrl types

/-- `extract_control_url`. -/
def extractControlUrl (desc baseUrl : List Char) : Guarded String (List Char × List Char) :=
  extractLoop desc baseUrl igdServiceTypes

end XferRust.Discovery
