import Mathlib.Data.List.DropRight
import XferRust.Lib.PathName
import XferRust.Playlist.Text

/-! # SFTP addresses

The path of an address is kept decoded, and the file is named by its last segment.  Of that only
the names that stand for a directory are refused.
-/
namespace XferRust.Sftp
open Playlist (trim lower)

/-- What the parser of addresses tells of one: a host that is missing or empty is none. -/
structure UrlParts where
  scheme : List Char
  username : List Char
  password : Option (List Char)
  host : Option (List Char)
  port : Option UInt16
  path : List Char
  query : Option (List Char)
  fragment : Option (List Char)

/-- `SftpUrl`. -/
structure SftpUrl where
  user : Option (List Char)
  password : Option (List Char)
  host : List Char
  port : UInt16
  path : List Char
  raw : List Char

/-- `Url::parse`, and `decode` as far as it is of another crate: a text with its escapes decoded, if
that is text. -/
structure UrlCrates where
  parse : List Char → Except String UrlParts
  percentDecode : List Char → Option (List Char)

/-- `decode`. -/
def UrlCrates.decode (u : UrlCrates) (s : List Char) : Except String (List Char) :=
  match u.percentDecode s with
  | some text => .ok text
  | none => .error "SFTP 地址包含非 UTF-8 的百分号编码"

/-- `SftpUrl::parse`. -/
def SftpUrl.parse (u : UrlCrates) (raw : List Char) : Except String SftpUrl := do
  let raw := trim raw
  let url ← u.parse raw
  if lower url.scheme ≠ "sftp".toList then
    let scheme := String.ofList url.scheme
    throw s!"不是 sftp:// 地址: {scheme}"
  if url.query.isSome ∨ url.fragment.isSome then
    throw "SFTP 地址不支持查询串或锚点；路径中的 ? / # 请使用百分号编码"
  match url.host with
  | none => throw "SFTP 地址缺少主机名"
  | some host =>
    let user := (u.percentDecode url.username).filter (· ≠ [])
    let password ← url.password.mapM u.decode
    let path ← u.decode url.path
    if path = [] ∨ path = ['/'] then throw "SFTP 地址缺少远程文件路径"
    if path.getLast? = some '/' then throw "SFTP 地址指向目录；当前只支持单文件下载"
    return { user, password, host, port := url.port.getD 22, path, raw }

/-- `validate_filename`. -/
def validateFilename (name : List Char) : Except String (List Char) :=
  if name = [] ∨ name = ['.'] ∨ name = ['.', '.'] then
    .error "SFTP 地址的远程文件名为空或非法；目录下载不在支持范围内"
  else .ok name

/-- The last segment of a path. -/
def lastSegment (path : List Char) : List Char :=
  (path.rdropWhile (· = '/')).rtakeWhile (· ≠ '/')

/-- `SftpUrl::filename`. -/
def SftpUrl.filename (url : SftpUrl) : Except String (List Char) :=
  validateFilename (lastSegment url.path)

end XferRust.Sftp
