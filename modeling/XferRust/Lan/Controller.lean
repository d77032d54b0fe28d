import XferRust.Playlist.Text

/-! # The controller of LAN transfer

`set_config` and `ensure_started` take the operation lock; `stop` does not, and `ensure_started`
tests the switch before it takes the lock.  What a call does between two awaits is one step; a
service that starts, and one that stops, is awaited.

Services are numbered in the order in which they start.  A name is a list of characters, and so is
a directory; the texts of errors are left out.
-/
namespace XferRust.Lan.Controller
open Playlist (trim isControl)

/-! ## Names and directories -/

/-- `clamp_name` -/
def clampName (name : List Char) : List Char :=
  let cleaned := trim ((name.filter fun c => !isControl c).take 64)
  if cleaned = [] then ['L', 'e', 'r', 'x', 'u'] else cleaned

/-- `Device::peek`: the name of the device, by the name in the identity file, the name of the host
and the name that is asked for. -/
def peekName (hostName identity wanted : List Char) : List Char :=
  if trim wanted ≠ [] then clampName (trim (clampName (trim wanted)))
  else if trim identity = [] then clampName (trim hostName)
  else clampName (trim identity)

/-- `LanUserConfig` -/
structure UserConfig where
  enabled : Bool
  deviceName : List Char
  recvDir : List Char
  deriving DecidableEq

/-- `LanConfigPatch` -/
structure ConfigPatch where
  enabled : Option Bool
  deviceName : Option (List Char)
  recvDir : Option (List Char)
  deriving DecidableEq

/-- `effective_recv_dir` -/
def effectiveRecvDir (defaultDir configured : List Char) : List Char :=
  if trim configured = [] then defaultDir else trim configured

/-- The stored name with the patch's, if that is not too long. -/
def patchName (old : List Char) : Option (List Char) → Option (List Char)
  | none => some old
  | some name => if 64 < (trim name).length then none else some (trim name)

/-- The stored directory with the patch's, if that is an absolute path and can be made. -/
def patchDir (old : List Char) (made : Bool) : Option (List Char) → Option (List Char)
  | none => some old
  | some dir => if trim dir = [] then some [] else if made then some (trim dir) else none

/-- The configuration with the patch, if its fields are valid. -/
def UserConfig.patched (cfg : UserConfig) (patch : ConfigPatch) (made : Bool) :
    Option UserConfig :=
  (patchName cfg.deviceName patch.deviceName).bind fun deviceName =>
    (patchDir cfg.recvDir made patch.recvDir).map fun recvDir =>
      { enabled := patch.enabled.getD cfg.enabled, deviceName, recvDir }

/-! ## The state -/

/-- A `LanService`; `running` until it is stopped. -/
structure Service where
  name : List Char
  recvDir : List Char
  running : Bool
  deriving DecidableEq

/-- Where a call awaits. -/
inductive Phase where
  /-- `ensure_started` awaits the lock. -/
  | ensureWaits
  /-- `set_config` awaits the lock. -/
  | patchWaits (patch : ConfigPatch)
  /-- `LanService::start` is awaited, with the lock. -/
  | starting (cfg : UserConfig)
  /-- `LanService::stop` is awaited, with or without the lock. -/
  | stopping (service : Nat)
  | returned
  deriving DecidableEq

/-- `LanController`, with the name in the identity file, all services and all calls there have
been. -/
structure State where
  hostName : List Char
  defaultDir : List Char
  identity : List Char
  config : UserConfig
  services : List Service
  service : Option Nat
  /-- The call that has the lock. -/
  opLock : Option Nat
  calls : List Phase

/-- How the operations of a call with the lock end: the directory of a patch is made, the
configuration saved, the identity file written and the directory of a running service set. -/
structure Outcome where
  made : Bool
  saved : Bool
  wrote : Bool
  dirSet : Bool

inductive Event where
  | ensureStarted
  | setConfig (patch : ConfigPatch)
  | stop
  /-- A call gets the lock. -/
  | acquire (i : Nat) (o : Outcome)
  /-- The service has started, or has failed to; the identity file is written or not. -/
  | started (i : Nat) (ok wrote : Bool)
  | stopped (i : Nat)

/-- The name that the configuration gives a service. -/
def State.effectiveName (s : State) (cfg : UserConfig) : List Char :=
  peekName s.hostName s.identity cfg.deviceName

/-- The directory that the configuration gives a service. -/
def State.effectiveDir (s : State) (cfg : UserConfig) : List Char :=
  effectiveRecvDir s.defaultDir cfg.recvDir

/-- `LanService::start` has ended. -/
def State.startService (s : State) (cfg : UserConfig) (ok wrote : Bool) : State :=
  let name := s.effectiveName cfg
  let s := { s with identity := if wrote then name else s.identity }
  if ok then
    { s with
      services := s.services ++ [{ name, recvDir := s.effectiveDir cfg, running := true }]
      service := some s.services.length }
  else s

/-- `start` and `start_deferred`, by `autostart`. -/
def start (hostName defaultDir identity : List Char) (config : UserConfig)
    (autostart ok wrote : Bool) : State :=
  let s : State :=
    { hostName, defaultDir, identity, config, services := [], service := none, opLock := none
      calls := [] }
  if autostart && config.enabled then s.startService config ok wrote else s

/-- A call returns, and gives back the lock if it has it. -/
def State.returned (s : State) (i : Nat) : State :=
  { s with
    opLock := if s.opLock = some i then none else s.opLock
    calls := s.calls.set i .returned }

/-- A call awaits something with the lock. -/
def State.awaits (s : State) (i : Nat) (phase : Phase) : State :=
  { s with opLock := some i, calls := s.calls.set i phase }

/-- A service that is given the settings: the name only if it is not empty, and the directory if it
can be set. -/
def Service.adjusted (sv : Service) (next : UserConfig) (name dir : List Char) (dirSet : Bool) :
    Service :=
  { sv with
    name := if next.deviceName = [] then sv.name else name
    recvDir := if dirSet then dir else sv.recvDir }

/-- The running service is given the settings; a name is written to the identity file as well. -/
def State.adjust (s : State) (k : Nat) (next : UserConfig) (o : Outcome) : State :=
  let name := s.effectiveName next
  { s with
    identity := if next.deviceName ≠ [] ∧ o.wrote then name else s.identity
    services := s.services.modify k fun sv =>
      sv.adjusted next name (s.effectiveDir next) o.dirSet }

/-- `set_config` with the lock, once the configuration is stored. -/
def State.configured (s : State) (i : Nat) (next : UserConfig) (o : Outcome) : State :=
  match s.service with
  | none => if next.enabled then s.awaits i (.starting next) else s.returned i
  | some k =>
    if next.enabled then (s.adjust k next o).returned i
    else { s with service := none }.awaits i (.stopping k)

/-- `set_config` with the lock. -/
def State.setConfig (s : State) (i : Nat) (patch : ConfigPatch) (o : Outcome) : State :=
  match s.config.patched patch o.made with
  | none => s.returned i
  | some next =>
    if o.saved then { s with config := next }.configured i next o else s.returned i

/-- `LanService::stop` has ended. -/
def State.stopService (s : State) (k : Nat) : State :=
  { s with services := s.services.modify k fun sv => { sv with running := false } }

def State.step (s : State) : Event → Option State
  | .ensureStarted =>
    some { s with calls := s.calls ++
      [if s.config.enabled && s.service.isNone then .ensureWaits else .returned] }
  | .setConfig patch => some { s with calls := s.calls ++ [.patchWaits patch] }
  | .stop =>
    match s.service with
    | none => some { s with calls := s.calls ++ [.returned] }
    | some k => some { s with service := none, calls := s.calls ++ [.stopping k] }
  | .acquire i o =>
    if s.opLock = none then
      match s.calls[i]? with
      | some .ensureWaits =>
        some (if s.service.isSome then s.returned i else s.awaits i (.starting s.config))
      | some (.patchWaits patch) => some (s.setConfig i patch o)
      | _ => none
    else none
  | .started i ok wrote =>
    match s.calls[i]? with
    | some (.starting cfg) => some ((s.startService cfg ok wrote).returned i)
    | _ => none
  | .stopped i =>
    match s.calls[i]? with
    | some (.stopping k) =>
      some (s.stopService k |>.returned i)
    | _ => none

end XferRust.Lan.Controller
