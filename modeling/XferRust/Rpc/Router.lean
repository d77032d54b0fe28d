import XferRust.Rpc.Methods

/-! # Requests and connections

A frame goes to the dispatcher of its protocol, by the name of its method; each dispatcher asks for
the credentials in its own way.  A WebSocket connection answers each frame, and sends the events of
the engine in the format of the protocol that it has been found to speak.

The engine is whatever has the functions that the methods call (`Engine`); it also goes on by
itself, between the frames.
-/
namespace XferRust.Rpc

/-- `EngineEvent` -/
abbrev EngineEvent := String × String

/-- What the requests and the events need of the engine. -/
structure Engine where
  State : Type
  /-- A function of the engine. -/
  perform : EngineCall → State → Except String Json × State
  isBtTask : State → String → Bool
  /-- `progress_snapshot`: status, completed and total length, and speed. -/
  progressSnapshot : State → String → Option (Json × Json × Json × Json)
  /-- The error's code and message of `tell_status_native`. -/
  taskError : State → String → Option (Json × Json)

/-- The engine's state, and which of its functions requests have called. -/
structure Sys (E : Engine) where
  state : E.State
  performed : List EngineCall

/-- How the router is configured. -/
structure Config where
  secret : Option String
  /-- There is a controller of LAN transfers. -/
  lan : Bool

/-- `Proto` -/
inductive Proto where
  | unknown
  | native
  | compat
  deriving DecidableEq

section
variable {E : Engine}

def Sys.perform (c : EngineCall) (s : Sys E) : Except String Json × Sys E :=
  let r := E.perform c s.state
  (r.1, { state := r.2, performed := s.performed ++ [c] })

/-- What a method does, done. -/
def Plan.run (p : Plan) (s : Sys E) : Except String Json × Sys E :=
  match p with
  | .value v => (.ok v, s)
  | .call c result =>
    let r := s.perform c
    (r.1.map result, r.2)
  | .failAfter c message =>
    let r := s.perform c
    (r.1.bind fun _ => .error message, r.2)

/-! ## The protocol of the frontends -/

/-- The first element of the parameters is the token. -/
def tokenOk (want : String) (params : List Json) : Bool :=
  decide (((params[0]?).bind Json.asStr).bind (stripPrefix "token:") = some want)

/-- The parameters behind the credentials, if these are accepted; methods in `system.` need none. -/
def authorize (secret : Option String) (method : String) (params : List Json) :
    Except CompatError (List Json) :=
  if startsWith "system." method then .ok params
  else
    match secret with
    | none => .ok params
    | some want => if tokenOk want params then .ok (params.drop 1) else .error .unauthorized

/-- The text of an error. -/
def CompatError.text : CompatError → String
  | .unauthorized => "Unauthorized"
  | .methodNotFound => "Method not found"
  | .method m => m

/-- A result as an element of the results of `system.multicall`. -/
def multicallResult : Except CompatError Json → Json
  | .ok v => .arr [v]
  | .error e => .obj [("code", .int rpcErrorCode), ("message", .str e.text)]

theorem sizeOf_parseMulticallEntry {call : Json} {name : String} {params : List Json}
    (h : parseMulticallEntry call = some (name, params)) : sizeOf params < sizeOf call := by
  unfold parseMulticallEntry at h
  obtain ⟨n, hname, heq⟩ := Option.map_eq_some_iff.mp h
  obtain ⟨-, rfl⟩ := Prod.mk.inj heq
  obtain ⟨v, hget, -⟩ := Option.bind_eq_some_iff.mp hname
  have hname := Json.sizeOf_lt_of_get hget
  cases hparams : (call.get? "params").bind Json.asArray with
  | none =>
    rw [Option.getD_none]
    cases v <;> simp only [List.nil.sizeOf_spec, Json.null.sizeOf_spec, Json.bool.sizeOf_spec,
      Json.int.sizeOf_spec, Json.float.sizeOf_spec, Json.str.sizeOf_spec, Json.arr.sizeOf_spec,
      Json.obj.sizeOf_spec] at hname ⊢ <;> omega
  | some elems =>
    obtain ⟨w, hw, hwarr⟩ := Option.bind_eq_some_iff.mp hparams
    rw [Option.getD_some]
    exact Nat.lt_trans (Json.sizeOf_lt_of_asArray hwarr) (Json.sizeOf_lt_of_get hw)

theorem mem_of_authorize {secret : Option String} {method : String} {params rest : List Json}
    (h : authorize secret method params = .ok rest) {v : Json} (hv : v ∈ rest) : v ∈ params := by
  unfold authorize at h
  split at h
  · cases h
    exact hv
  · split at h
    · cases h
      exact hv
    · split at h
      · cases h
        exact List.mem_of_mem_drop hv
      · cases h

theorem sizeOf_calls {secret : Option String} {method : String} {params rest calls : List Json}
    (hauth : authorize secret method params = .ok rest)
    (hcalls : (rest[0]?).bind Json.asArray = some calls) : sizeOf calls < sizeOf params := by
  obtain ⟨w, hw, hwarr⟩ := Option.bind_eq_some_iff.mp hcalls
  have hmem : w ∈ params := mem_of_authorize hauth (List.mem_of_getElem? hw)
  exact Nat.lt_trans (Json.sizeOf_lt_of_asArray hwarr) (List.sizeOf_lt_of_mem hmem)

mutual

/-- `CompatDispatcher::dispatch` -/
def compatDispatch (config : Config) (method : String) (params : List Json) (s : Sys E) :
    Except CompatError Json × Sys E :=
  let name := (stripPrefix "aria2." method).getD method
  match _hauth : authorize config.secret name params with
  | .error e => (.error e, s)
  | .ok rest =>
    if name = "system.multicall" then
      match _hcalls : (rest[0]?).bind Json.asArray with
      | none => (.error (.method "参数 0（calls 数组）缺失"), s)
      | some calls => multicall config calls [] s
    else if name = "system.listMethods" then (.ok (.arr (supportedMethods.map .str)), s)
    else if name = "system.listNotifications" then
      (.ok (.arr ((notifications.map ("aria2." ++ ·)).map .str)), s)
    else
      match compatMethod name rest with
      | .error e => (.error e, s)
      | .ok plan =>
        let r := plan.run s
        (r.1.mapError .method, r.2)
termination_by sizeOf params
decreasing_by exact sizeOf_calls _hauth _hcalls

/-- The calls of `system.multicall`, with the results so far. -/
def multicall (config : Config) (calls : List Json) (results : List Json) (s : Sys E) :
    Except CompatError Json × Sys E :=
  match calls with
  | [] => (.ok (.arr results), s)
  | call :: rest =>
    match _hentry : parseMulticallEntry call with
    | none => (.error (.method "multicall 条目格式非法"), s)
    | some (name, params) =>
      let r := compatDispatch config name params s
      multicall config rest (results ++ [multicallResult r.1]) r.2
termination_by sizeOf calls
decreasing_by
  · have hparams := sizeOf_parseMulticallEntry _hentry
    rw [List.cons.sizeOf_spec]
    omega
  · rw [List.cons.sizeOf_spec]
    omega

end

/-- `CompatDispatcher::event_frame` -/
def compatEventFrame (s : E.State) (ev : EngineEvent) : Option Json :=
  let frame (name : String) : Json := .obj [("jsonrpc", .str "2.0"),
    ("method", .str ("aria2." ++ name)), ("params", .arr [.obj [("gid", .str ev.2)]])]
  if ev.1 = "start" then some (frame "onDownloadStart")
  else if ev.1 = "pause" then some (frame "onDownloadPause")
  else if ev.1 = "stop" then some (frame "onDownloadStop")
  else if ev.1 = "complete" then
    some (frame (if E.isBtTask s ev.2 then "onBtDownloadComplete" else "onDownloadComplete"))
  else if ev.1 = "error" then some (frame "onDownloadError")
  else none

/-! ## The native protocol -/

/-- `NativeDispatcher::dispatch` -/
def nativeDispatch (config : Config) (method : String) (obj : Json) (s : Sys E) :
    Except String Json × Sys E :=
  if config.secret.all fun want => (obj.get? "token").bind Json.asStr = some want then
    match nativeMethod config.lan method obj with
    | .error e => (.error e, s)
    | .ok plan => plan.run s
  else (.error "Unauthorized", s)

/-- `NativeDispatcher::event_frame` -/
def nativeEventFrame (s : E.State) (ev : EngineEvent) : Option Json :=
  let frame (method : String) (params : List (String × Json)) : Json :=
    .obj [("jsonrpc", .str "2.0"), ("method", .str method), ("params", .obj params)]
  (gidParse ev.2).bind fun gid =>
    if ev.1 = "progress" then
      (E.progressSnapshot s gid).map fun (status, completed, total, speed) =>
        frame "task.progress" [("gid", .str ev.2), ("status", status),
          ("completedLength", completed), ("totalLength", total), ("downloadSpeed", speed)]
    else if ev.1 = "start" ∨ ev.1 = "pause" ∨ ev.1 = "stop" ∨ ev.1 = "complete" then
      some (frame ("task." ++ ev.1) [("gid", .str ev.2)])
    else if ev.1 = "error" then
      (E.taskError s gid).map fun (code, message) =>
        frame "task.error" [("gid", .str ev.2), ("errorCode", code), ("errorMessage", message)]
    else none

/-! ## Frames -/

/-- `HandleOutcome` -/
structure HandleOutcome where
  response : Option Json
  protoUsed : Proto
  nativeSubscribed : Bool

/-- `frame` -/
def frame (id : Json) : Except String Json → Json
  | .ok v => .obj [("jsonrpc", .str "2.0"), ("id", id), ("result", v)]
  | .error message => .obj [("jsonrpc", .str "2.0"), ("id", id),
      ("error", .obj [("code", .int rpcErrorCode), ("message", .str message)])]

/-- `handle_one` -/
def handleOne (config : Config) (req : Json) (s : Sys E) : HandleOutcome × Sys E :=
  let id := req.get? "id"
  match (req.get? "method").bind Json.asStr with
  | none => (⟨id.map fun id => frame id (.error "Invalid request"), .unknown, false⟩, s)
  | some method =>
    let params := (req.get? "params").getD .null
    if owns method then
      let r := nativeDispatch config method params s
      (⟨id.map fun id => frame id r.1, .native, method = "events.subscribe" && r.1.toBool⟩, r.2)
    else
      let r := compatDispatch config method (params.asArray.getD []) s
      (⟨id.map fun id => frame id (r.1.mapError CompatError.text), .compat, false⟩, r.2)

/-- The items of a batch, with what has been found so far. -/
def handleItems (config : Config) : List Json → List Json → Proto → Bool → Sys E →
    (List Json × Proto × Bool) × Sys E
  | [], responses, proto, subscribed, s => ((responses, proto, subscribed), s)
  | item :: items, responses, proto, subscribed, s =>
    let r := handleOne config item s
    handleItems config items (responses ++ r.1.response.toList)
      (if proto = .unknown then r.1.protoUsed else proto) (subscribed || r.1.nativeSubscribed) r.2

/-- What a client sends in one piece: bytes that are no text, a text that is not JSON, or a
value. -/
inductive Body where
  | binary
  | malformed
  | json (v : Json)

/-- `Router::handle` -/
def handle (config : Config) (v : Option Json) (s : Sys E) : HandleOutcome × Sys E :=
  match v with
  | none => (⟨some (frame .null (.error "Parse error")), .unknown, false⟩, s)
  | some (.arr items) =>
    let r := handleItems config items [] .unknown false s
    (⟨if r.1.1.isEmpty then none else some (.arr r.1.1), r.1.2.1, r.1.2.2⟩, r.2)
  | some req => handleOne config req s

/-! ## Connections -/

/-- What happens around a connection: a frame of the client, an event of the engine, or the engine
going on by itself. -/
inductive Input (E : Engine) where
  | frame (body : Body)
  | event (ev : EngineEvent)
  | engine (state : E.State)

/-- A WebSocket connection: what it has found out, and the engine. -/
structure Connection (E : Engine) where
  proto : Proto
  nativeEvents : Bool
  sys : Sys E

/-- A frame that is a text. -/
def Connection.answer (config : Config) (c : Connection E) (v : Option Json) :
    List Json × Connection E :=
  let r := handle config v c.sys
  (r.1.response.toList,
    { proto := if c.proto = .unknown then r.1.protoUsed else c.proto
      nativeEvents := c.nativeEvents || r.1.nativeSubscribed
      sys := r.2 })

/-- `ws_jsonrpc`: what is sent, and the connection after it. -/
def Connection.step (config : Config) (c : Connection E) : Input E → List Json × Connection E
  | .frame .binary => ([], c)
  | .frame .malformed => c.answer config none
  | .frame (.json v) => c.answer config (some v)
  | .event ev =>
    ((match c.proto with
      | .compat => compatEventFrame c.sys.state ev
      | .native => if c.nativeEvents then nativeEventFrame c.sys.state ev else none
      | .unknown => none).toList, c)
  | .engine state => ([], { c with sys := { c.sys with state } })

/-- All that is sent, and the connection at the end. -/
def Connection.run (config : Config) : Connection E → List (Input E) → List Json × Connection E
  | c, [] => ([], c)
  | c, i :: is =>
    let r := c.step config i
    let rest := r.2.run config is
    (r.1 ++ rest.1, rest.2)

/-- A connection as it comes in. -/
def Connection.opened (state : E.State) : Connection E where
  proto := .unknown
  nativeEvents := false
  sys := { state, performed := [] }

/-- An answer to a POST. -/
inductive HttpResponse where
  | badRequest
  | json (v : Json)

/-- `post_jsonrpc` -/
def post (config : Config) (body : Body) (s : Sys E) : HttpResponse × Sys E :=
  let answer (v : Option Json) : HttpResponse × Sys E :=
    let r := handle config v s
    (r.1.response.elim .badRequest .json, r.2)
  match body with
  | .binary => (.badRequest, s)
  | .malformed => answer none
  | .json v => answer (some v)

/-- The POSTs of one connection, between which the engine goes on. -/
def postAll (config : Config) : Sys E → List (Input E) → List HttpResponse × Sys E
  | s, [] => ([], s)
  | s, .frame body :: is =>
    let r := post config body s
    let rest := postAll config r.2 is
    (r.1 :: rest.1, rest.2)
  | s, .event _ :: is => postAll config s is
  | s, .engine state :: is => postAll config { s with state } is

end
end XferRust.Rpc
