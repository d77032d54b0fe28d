import XferRust.Lib.Json

/-! # The methods of both protocols

What a request makes of its parameters once its credentials have been accepted: a constant, an
error, or a call of a function of the engine whose answer becomes the result.  The functions of the
engine are named and not modelled here.

The protocol of the frontends takes positions (`compatMethod`), the native one names
(`nativeMethod`).
-/
namespace XferRust.Rpc

/-! ## Calls -/

/-- A call of a function of the engine, or of the controller of LAN transfers. -/
structure EngineCall where
  function : String
  args : List Json

/-- What a method does. -/
inductive Plan where
  | value (v : Json)
  /-- The answer of the function, made a result. -/
  | call (c : EngineCall) (result : Json → Json)
  /-- The function is called, and if all is well there, this is the error. -/
  | failAfter (c : EngineCall) (message : String)

/-- `CompatError` -/
inductive CompatError where
  | unauthorized
  | methodNotFound
  | method (message : String)

/-- `RPC_ERROR_CODE` -/
def rpcErrorCode : Int := 1

def engineName : String := "XferRust"

def engineVersion : String := "0.5.2"

/-! ## Texts -/

/-- `strip_prefix` -/
def stripPrefix (p s : String) : Option String :=
  if p.toList.isPrefixOf s.toList then some (String.ofList (s.toList.drop p.toList.length))
  else none

/-- `starts_with` -/
def startsWith (p s : String) : Bool := p.toList.isPrefixOf s.toList

theorem eq_append_of_stripPrefix {p s r : String} (h : stripPrefix p s = some r) : s = p ++ r := by
  unfold stripPrefix at h
  split at h
  · rename_i hprefix
    obtain ⟨rest, hrest⟩ := List.isPrefixOf_iff_prefix.mp hprefix
    rw [← hrest, List.drop_left] at h
    rw [← Option.some.inj h]
    refine String.toList_inj.mp ?_
    rw [String.toList_append, String.toList_ofList, hrest]
  · cases h

/-- `Gid::parse` -/
def gidParse (s : String) : Option String :=
  let digits := s.toList
  if digits.length = 16 ∧
      digits.all (fun c => c.isDigit || ('a' ≤ c ∧ c ≤ 'f') || ('A' ≤ c ∧ c ≤ 'F')) then
    some (String.ofList (digits.map Char.toLower))
  else none

def ok : Json := .str "OK"

def okTrue : Json := .obj [("ok", .bool true)]

/-- An optional value as an argument. -/
def orNull {α : Type} (f : α → Json) (v : Option α) : Json := v.elim .null f

/-! ## The protocol of the frontends -/

/-- `gid_at` -/
def gidAt (params : List Json) (idx : Nat) : Except CompatError Json :=
  match (params[idx]?).bind Json.asStr with
  | none => .error (.method ("参数 " ++ toString idx ++ "（gid）缺失"))
  | some s =>
    match gidParse s with
    | none => .error (.method ("GID " ++ s ++ " 非法"))
    | some gid => .ok (.str gid)

/-- `keys_at` -/
def keysAt (params : List Json) (idx : Nat) : Json :=
  orNull (fun elems => .arr ((Json.texts elems).map .str)) ((params[idx]?).bind Json.asArray)

/-- The options at a place; there are none if nothing is there. -/
def optionsAt (params : List Json) (idx : Nat) : Json := (params[idx]?).getD (.obj [])

def intAt (params : List Json) (idx : Nat) : Option Int := (params[idx]?).bind Json.asI64

/-- A method about one task, whose function has no other argument. -/
def aboutTask (function : String) (result : Json → Json) (params : List Json) :
    Except CompatError Plan := do
  let gid ← gidAt params 0
  return .call ⟨function, [gid]⟩ result

/-- The methods of `METHODS`, by name. -/
def compatMethods : List (String × (List Json → Except CompatError Plan)) :=
  [("getVersion", fun _ => .ok (.value (.obj [("version", .str engineVersion),
      ("enabledFeatures", .arr [.str (engineName ++ " (Rust)")])]))),
    ("addUri", fun params =>
      match (params[0]?).bind Json.asArray with
      | none => .error (.method "参数 0（uris 数组）缺失")
      | some uris => .ok (.call ⟨"add_uri", [.arr ((Json.texts uris).map .str), optionsAt params 1,
          orNull .int (intAt params 2)]⟩ id)),
    ("addTorrent", fun params =>
      match (params[0]?).bind Json.asStr with
      | none => .error (.method "参数 0（torrent base64）缺失")
      | some torrent => .ok (.call ⟨"add_torrent", [.str torrent, optionsAt params 1,
          orNull .int (intAt params 2)]⟩ id)),
    ("getPeers", aboutTask "get_peers" id),
    ("remove", aboutTask "remove" fun _ => ok),
    ("forceRemove", aboutTask "remove" fun _ => ok),
    ("pause", aboutTask "pause" fun _ => ok),
    ("forcePause", aboutTask "pause" fun _ => ok),
    ("unpause", aboutTask "unpause" fun _ => ok),
    ("tellStatus", fun params => do
      let gid ← gidAt params 0
      return .call ⟨"tell_status", [gid, keysAt params 1]⟩ id),
    ("tellActive", fun params => .ok (.call ⟨"tell_active", [keysAt params 0]⟩ id)),
    ("tellWaiting", fun params => .ok (.call ⟨"tell_waiting", [.int ((intAt params 0).getD 0),
      .int ((intAt params 1).getD (-1)), keysAt params 2]⟩ id)),
    ("tellStopped", fun params => .ok (.call ⟨"tell_stopped", [.int ((intAt params 0).getD 0),
      .int ((intAt params 1).getD (-1)), keysAt params 2]⟩ id)),
    ("getGlobalStat", fun _ => .ok (.call ⟨"global_stat", []⟩ id)),
    ("getFiles", aboutTask "get_files" id),
    ("getURIs", aboutTask "get_uris" id),
    ("getOption", aboutTask "get_option" id),
    ("changeOption", fun params => do
      let gid ← gidAt params 0
      return .call ⟨"change_option", [gid, optionsAt params 1]⟩ fun _ => ok),
    ("changeGlobalOption", fun params =>
      .ok (.call ⟨"change_global_option", [optionsAt params 0]⟩ fun _ => ok)),
    ("getGlobalOption", fun _ => .ok (.call ⟨"get_global_option", []⟩ id)),
    ("purgeDownloadResult", fun _ => .ok (.call ⟨"purge_download_result", []⟩ fun _ => ok)),
    ("removeDownloadResult", aboutTask "remove_download_result" fun _ => ok),
    ("saveSession", fun _ => .ok (.call ⟨"save_session", []⟩ fun _ => ok)),
    ("shutdown", fun _ => .ok (.call ⟨"shutdown", []⟩ fun _ => ok)),
    ("forceShutdown", fun _ => .ok (.call ⟨"shutdown", []⟩ fun _ => ok))]

def compatMethod (method : String) (params : List Json) : Except CompatError Plan :=
  match compatMethods.find? fun m => m.1 = method with
  | none => .error .methodNotFound
  | some m => m.2 params

/-- `SYSTEM_METHODS` -/
def systemMethods : List String :=
  ["system.multicall", "system.listMethods", "system.listNotifications"]

/-- `NOTIFICATIONS` -/
def notifications : List String :=
  ["onDownloadStart", "onDownloadPause", "onDownloadStop", "onDownloadComplete",
    "onDownloadError", "onBtDownloadComplete"]

/-- `METHODS`, in the order of the table there. -/
def methods : List String :=
  ["addUri", "addTorrent", "getPeers", "remove", "forceRemove", "pause", "forcePause", "unpause",
    "tellStatus", "tellActive", "tellWaiting", "tellStopped", "getGlobalStat", "getVersion",
    "getFiles", "getURIs", "getOption", "changeOption", "getGlobalOption", "changeGlobalOption",
    "purgeDownloadResult", "removeDownloadResult", "saveSession", "shutdown", "forceShutdown"]

/-- `supported_methods` -/
def supportedMethods : List String :=
  methods.map ("aria2." ++ ·) ++ systemMethods ++ notifications.map ("aria2." ++ ·)

/-- `parse_multicall_entry` -/
def parseMulticallEntry (call : Json) : Option (String × List Json) :=
  ((call.get? "methodName").bind Json.asStr).map fun name =>
    (name, ((call.get? "params").bind Json.asArray).getD [])

/-! ## The native protocol -/

/-- `NATIVE_PREFIXES` -/
def nativePrefixes : List String := ["task.", "engine.", "events.", "lan."]

/-- `NativeDispatcher::owns` -/
def owns (method : String) : Bool := nativePrefixes.any fun p => startsWith p method

/-- `ENGINE_FEATURES` -/
def engineFeatures : List String :=
  ["http", "resume", "checksum", "bt", "hls", "flv", "events", "bitfield", "wanted-bitfield",
    "ban-peer", "change-uri", "get-servers", "verify-files", "playhead", "sftp", "lan",
    "lan-config", "mcp"]

/-- The parameters of a native request: an object, or none. -/
abbrev Fields := Json

/-- The task that the parameters name. -/
def gidOf (obj : Fields) (key : String) : Except String Json :=
  match (obj.get? key).bind Json.asStr with
  | none => .error ("参数 " ++ key ++ "（gid）缺失")
  | some s =>
    match gidParse s with
    | none => .error ("GID " ++ s ++ " 非法")
    | some gid => .ok (.str gid)

def strOf (obj : Fields) (key missing : String) : Except String Json :=
  match (obj.get? key).bind Json.asStr with
  | none => .error missing
  | some s => .ok (.str s)

def keysOf (obj : Fields) : Json :=
  orNull (fun elems => .arr ((Json.texts elems).map .str)) ((obj.get? "keys").bind Json.asArray)

def positionOf (obj : Fields) : Json := orNull .int ((obj.get? "position").bind Json.asI64)

/-- The texts of a list, which may be missing. -/
def textsOf (obj : Fields) (key : String) : Option (List String) :=
  ((obj.get? key).bind Json.asArray).map Json.texts

/-- The parameters without some of the fields. -/
def without (reserved : List String) : Fields → Json
  | .obj fields => .obj (fields.filter fun f => f.1 ∉ reserved)
  | _ => .obj []

/-- A native method about one task, whose function has no other argument. -/
def ofTask (function : String) (result : Json → Json) (obj : Fields) : Except String Plan := do
  let gid ← gidOf obj "gid"
  return .call ⟨function, [gid]⟩ result

/-- A native method whose function takes one text. -/
def ofText (function key missing : String) (result : Json → Json) (obj : Fields) :
    Except String Plan := do
  let text ← strOf obj key missing
  return .call ⟨function, [text]⟩ result

def reserved : List String := ["token", "uris", "torrent", "magnet", "position", "keys"]

def withGid (g : Json) : Json := .obj [("gid", g)]

/-- `task.add` -/
def taskAdd (obj : Fields) : Except String Plan :=
  let options := without reserved obj
  match (obj.get? "magnet").bind Json.asStr with
  | some m => .ok (.call ⟨"add_magnet", [.str m, options, positionOf obj]⟩ withGid)
  | none =>
    match (obj.get? "torrent").bind Json.asStr with
    | some t => .ok (.call ⟨"add_torrent", [.str t, options, positionOf obj]⟩ withGid)
    | none =>
      match textsOf obj "uris" with
      | none => .error "参数 uris（数组）缺失"
      | some uris =>
        .ok (.call ⟨"add_uri", [.arr (uris.map .str), options, positionOf obj]⟩ withGid)

/-- The methods in `task.`, by name. -/
def taskMethods : List (String × (Fields → Except String Plan)) :=
  [("task.add", taskAdd),
    ("task.tell", fun obj => do
      let gid ← gidOf obj "gid"
      return .call ⟨"tell_status_native", [gid, keysOf obj]⟩ id),
    ("task.list", fun obj => .ok (.call ⟨"list_native",
      [.str (((obj.get? "scope").bind Json.asStr).getD "all"),
        .int (((obj.get? "offset").bind Json.asI64).getD 0),
        .int (((obj.get? "num").bind Json.asI64).getD (-1)), keysOf obj]⟩ id)),
    ("task.pause", ofTask "pause" fun _ => okTrue),
    ("task.resume", ofTask "unpause" fun _ => okTrue),
    ("task.remove", fun obj => do
      let gid ← gidOf obj "gid"
      return .call ⟨"remove_with_files",
        [gid, .bool (((obj.get? "deleteFiles").bind Json.asBool).getD false)]⟩ fun _ => okTrue),
    ("task.stopSeed", ofTask "stop_seeding" fun _ => okTrue),
    ("task.purgeResults", fun _ => .ok (.call ⟨"purge_download_result", []⟩ fun _ => okTrue)),
    ("task.removeResult", ofTask "remove_download_result" fun _ => okTrue),
    ("task.getFiles", ofTask "get_files" id),
    ("task.previewBt", fun obj => .ok (.call ⟨"preview_bt", [obj]⟩ id)),
    ("task.verifyFiles", fun obj => do
      let gid ← gidOf obj "gid"
      return .call ⟨"verify_task_files",
        [gid, .str (((obj.get? "algorithm").bind Json.asStr).getD "sha256")]⟩ id),
    ("task.getUris", ofTask "get_uris" id),
    ("task.getPeers", ofTask "get_peers" id),
    ("task.getTrackers", ofTask "get_trackers" id),
    ("task.getServers", ofTask "get_servers" id),
    ("task.setPlayhead", fun obj =>
      match (obj.get? "offset").bind Json.asI64 with
      | none => .error "参数 offset（字节偏移，-1 = 停止播放）缺失"
      | some off => do
        let gid ← gidOf obj "gid"
        return .call ⟨"set_playhead", [gid, if off < 0 then .null else .int off]⟩ id),
    ("task.changeUri", fun obj => do
      let gid ← gidOf obj "gid"
      return .call ⟨"change_uri",
        [gid, .int (max (((obj.get? "fileIndex").bind Json.asU64).getD 1) 1 : Nat),
          .arr (((textsOf obj "delUris").getD []).map .str),
          .arr (((textsOf obj "addUris").getD []).map .str)]⟩ id),
    ("task.banPeer", fun obj => do
      let _ ← gidOf obj "gid"
      let ip ← strOf obj "ip" "参数 ip 缺失"
      return .call ⟨"ban_peer_ip",
        [ip, .int (((obj.get? "duration").bind Json.asI64).getD (-1))]⟩ fun _ => okTrue),
    ("task.unbanPeer", fun obj => do
      let _ ← gidOf obj "gid"
      let ip ← strOf obj "ip" "参数 ip 缺失"
      return .call ⟨"unban_peer_ip", [ip]⟩ fun _ => okTrue),
    ("task.addTrackers", fun obj => do
      let gid ← gidOf obj "gid"
      match textsOf obj "trackers" with
      | none => .error "参数 trackers（数组）缺失"
      | some [] => .error "trackers 不能为空"
      | some trackers =>
        return .call ⟨"add_trackers", [gid, .arr (trackers.map .str)]⟩ fun _ => okTrue),
    ("task.getOption", ofTask "get_option" id),
    ("task.changeOption", fun obj => do
      let gid ← gidOf obj "gid"
      return .call ⟨"change_option", [gid, without ["gid", "token"] obj]⟩ fun _ => okTrue)]

/-- The methods in `engine.` and `events.`, by name. -/
def engineMethods : List (String × (Fields → Except String Plan)) :=
  [("engine.saveSession", fun _ => .ok (.call ⟨"save_session", []⟩ fun _ => okTrue)),
    ("engine.getVersion", fun _ => .ok (.value (.obj [("name", .str engineName),
      ("version", .str engineVersion), ("features", .arr (engineFeatures.map .str))]))),
    ("engine.globalStat", fun _ => .ok (.call ⟨"global_stat_native", []⟩ id)),
    ("engine.getOptions", fun _ => .ok (.call ⟨"get_global_option", []⟩ id)),
    ("engine.changeOptions", fun obj =>
      .ok (.call ⟨"change_global_option", [without ["token"] obj]⟩ fun _ => okTrue)),
    ("engine.getTrackers", fun _ =>
      .ok (.call ⟨"get_global_trackers", []⟩ fun v => .obj [("trackers", v)])),
    ("engine.addTracker", ofText "add_global_tracker" "tracker" "参数 tracker 缺失" fun _ => okTrue),
    ("engine.removeTracker",
      ofText "remove_global_tracker" "tracker" "参数 tracker 缺失" fun _ => okTrue),
    ("engine.getSubscriptions", fun _ => .ok (.call ⟨"get_subscriptions", []⟩ id)),
    ("engine.addSubscription", fun obj => do
      let url ← strOf obj "url" "参数 url 缺失"
      return .call ⟨"add_subscription", [.str (((obj.get? "name").bind Json.asStr).getD ""), url,
        .bool (((obj.get? "enabled").bind Json.asBool).getD true)]⟩ id),
    ("engine.removeSubscription",
      ofText "remove_subscription" "id" "参数 id 缺失" fun _ => okTrue),
    ("engine.toggleSubscription",
      ofText "toggle_subscription" "id" "参数 id 缺失" fun _ => okTrue),
    ("engine.refreshSubscription",
      ofText "refresh_subscription" "id" "参数 id 缺失" fun n => .obj [("count", n)]),
    ("engine.refreshAllSubscriptions", fun _ =>
      .ok (.call ⟨"refresh_all_subscriptions", []⟩ fun n => .obj [("count", n)])),
    ("engine.getAutoUpdateTrackers", fun _ =>
      .ok (.call ⟨"get_auto_update_trackers", []⟩ fun v => .obj [("enabled", v)])),
    ("engine.setAutoUpdateTrackers", fun obj =>
      match (obj.get? "enabled").bind Json.asBool with
      | none => .error "参数 enabled 缺失"
      | some b => .ok (.call ⟨"set_auto_update_trackers", [.bool b]⟩ fun _ => okTrue)),
    ("engine.shutdown", fun _ => .ok (.call ⟨"shutdown", []⟩ fun _ => okTrue)),
    ("engine.forceShutdown", fun _ => .ok (.call ⟨"shutdown", []⟩ fun _ => okTrue)),
    ("events.subscribe", fun _ => .ok (.value okTrue))]

/-- A LAN method whose service is looked up before its parameters are. -/
def afterService (obj : Except String Plan) : Except String Plan :=
  match obj with
  | .ok plan => .ok plan
  | .error message => .ok (.failAfter ⟨"lan.service", []⟩ message)

/-- The methods in `lan.`, by name, where there is a controller. -/
def lanMethods : List (String × (Fields → Except String Plan)) :=
  [("lan.config", fun _ => .ok (.call ⟨"lan.status", []⟩ id)),
    ("lan.setConfig", fun obj => .ok (.call ⟨"lan.set_config", [without [] obj]⟩ id)),
    ("lan.peers", fun _ => .ok (.call ⟨"lan.peers", []⟩ fun v => .obj [("peers", v)])),
    ("lan.tasks", fun _ => .ok (.call ⟨"lan.tasks", []⟩ fun v => .obj [("tasks", v)])),
    ("lan.send", fun obj => afterService do
      let peer ← strOf obj "peer" "参数 peer（设备 id）缺失"
      match textsOf obj "paths" with
      | none => .error "参数 paths（数组）缺失"
      | some [] => .error "paths 不能为空"
      | some paths =>
        return .call ⟨"lan.send", [peer, .arr (paths.map .str)]⟩ fun v => .obj [("tasks", v)]),
    ("lan.remove", fun obj =>
      afterService (ofText "lan.remove" "id" "参数 id 缺失" (fun _ => okTrue) obj)),
    ("lan.cancel", fun obj =>
      afterService (ofText "lan.cancel" "id" "参数 id 缺失" (fun _ => okTrue) obj))]

/-- What a native method does; `lan` says whether there is a controller of LAN transfers. -/
def nativeMethod (lan : Bool) (method : String) (obj : Fields) : Except String Plan :=
  match (taskMethods ++ engineMethods).find? fun m => m.1 = method with
  | some m => m.2 obj
  | none =>
    match lanMethods.find? fun m => m.1 = method with
    | some m => if lan then m.2 obj else .error "局域网传输未启用"
    | none => .error "Method not found"

end XferRust.Rpc
