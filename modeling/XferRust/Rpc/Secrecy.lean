import XferRust.Rpc.Router

/-! # What a client without the secret learns

Without the secret a frame has one answer, whatever the engine is and does: an error, or one of the
constants of the methods in `system.`.  No function of the engine is called.

The events are another matter.  A connection takes the format of its events from the first frame
that names a method, also if this was refused; and in the format of the frontends it sends them to
everybody: `secretKept_iff`.
-/
namespace XferRust.Rpc

/-- The secret does not occur in the value, by itself or as a token of the frontends. -/
def Secretless (want : String) (v : Json) : Prop :=
  ¬ v.Leaf want ∧ ¬ v.Leaf ("token:" ++ want)

variable {config : Config} {want : String} {v : Json} {params : List Json}

theorem Secretless.of_leaves {w : Json} (h : Secretless want v) (hleaf : ∀ t, w.Leaf t → v.Leaf t) :
    Secretless want w :=
  ⟨fun hw => h.1 (hleaf _ hw), fun hw => h.2 (hleaf _ hw)⟩

theorem Secretless.of_mem {elems : List Json} (h : Secretless want (.arr elems)) (hv : v ∈ elems) :
    Secretless want v :=
  h.of_leaves fun _ hleaf => .arr hv hleaf

theorem Secretless.of_asArray (h : Secretless want v) {w : Json} (hw : w ∈ v.asArray.getD []) :
    Secretless want w := by
  cases harr : v.asArray with
  | none =>
    rw [harr] at hw
    cases hw
  | some elems =>
    rw [harr] at hw
    exact (Json.asArray_eq_some.mp harr ▸ h).of_mem hw

/-! ## Dispatchers -/

theorem tokenOk_of_secretless (h : ∀ p ∈ params, Secretless want p) :
    tokenOk want params = false := by
  refine decide_eq_false fun htoken => ?_
  obtain ⟨s, hs, hstrip⟩ := Option.bind_eq_some_iff.mp htoken
  obtain ⟨p, hp, hstr⟩ := Option.bind_eq_some_iff.mp hs
  have hleaf := Json.Leaf.of_asStr hstr
  rw [eq_append_of_stripPrefix hstrip] at hleaf
  exact (h p (List.mem_of_getElem? hp)).2 hleaf

/-- Without the secret, only methods in `system.` get past the credentials. -/
theorem authorize_of_secretless (h : ∀ p ∈ params, Secretless want p) (method : String) :
    authorize (some want) method params =
      if startsWith "system." method then .ok params else .error .unauthorized := by
  unfold authorize
  split
  · rfl
  · simp only
    rw [tokenOk_of_secretless h]
    rfl

/-- No method of the engine is in `system.`. -/
theorem compatMethod_of_system {method : String} (h : startsWith "system." method = true)
    (params : List Json) : compatMethod method params = .error .methodNotFound := by
  have hnone : ∀ m ∈ compatMethods.map Prod.fst, startsWith "system." m = false := by
    decide +kernel
  unfold compatMethod
  rw [List.find?_eq_none.mpr]
  intro m hm heq
  have hname : m.1 = method := of_decide_eq_true heq
  rw [← hname, hnone m.1 (List.mem_map.mpr ⟨m, hm, rfl⟩)] at h
  cases h

section
variable {E : Engine}

/-- `dispatch`, without the equations that its recursion rests on. -/
theorem compatDispatch_eq (config : Config) (method : String) (params : List Json) (s : Sys E) :
    compatDispatch config method params s =
      let name := (stripPrefix "aria2." method).getD method
      match authorize config.secret name params with
      | .error e => (.error e, s)
      | .ok rest =>
        if name = "system.multicall" then
          match (rest[0]?).bind Json.asArray with
          | none => (.error (.method "参数 0（calls 数组）缺失"), s)
          | some calls => multicall config calls [] s
        else if name = "system.listMethods" then (.ok (.arr (supportedMethods.map .str)), s)
        else if name = "system.listNotifications" then
          (.ok (.arr ((notifications.map ("aria2." ++ ·)).map .str)), s)
        else
          match compatMethod name rest with
          | .error e => (.error e, s)
          | .ok plan =>
            let r := plan.run s
            (r.1.mapError .method, r.2) := by
  rw [compatDispatch]
  split
  · rename_i e h
    simp only [h]
  · rename_i rest h
    simp only [h]
    split
    · split
      · rename_i hcalls
        rw [hcalls]
      · rename_i calls hcalls
        rw [hcalls]
    · rfl

theorem multicall_cons (config : Config) (call : Json) (rest results : List Json) (s : Sys E) :
    multicall config (call :: rest) results s =
      match parseMulticallEntry call with
      | none => (.error (.method "multicall 条目格式非法"), s)
      | some (name, params) =>
        let r := compatDispatch config name params s
        multicall config rest (results ++ [multicallResult r.1]) r.2 := by
  rw [multicall]
  split
  · rename_i h
    rw [h]
  · rename_i name params h
    rw [h]

end

theorem secretless_of_entry {call : Json} {name : String} (h : Secretless want call)
    (hentry : parseMulticallEntry call = some (name, params)) :
    ∀ p ∈ params, Secretless want p := by
  obtain ⟨n, -, heq⟩ := Option.map_eq_some_iff.mp hentry
  obtain ⟨-, rfl⟩ := Prod.mk.inj heq
  intro p hp
  cases hparams : call.get? "params" with
  | none =>
    rw [hparams] at hp
    cases hp
  | some v =>
    rw [hparams] at hp
    exact (h.of_leaves fun _ hleaf => .of_get hparams hleaf).of_asArray hp

/-- A request of the frontends has one result and does nothing, if its calls in `system.multicall`
are so. -/
theorem compatDispatch_inert_of (hsecret : config.secret = some want)
    (h : ∀ p ∈ params, Secretless want p) (method : String)
    (hmulticall : ∀ calls : List Json, sizeOf calls < sizeOf params →
      (∀ c ∈ calls, Secretless want c) →
        ∃ r, ∀ (E : Engine) (s : Sys E), multicall config calls [] s = (r, s)) :
    ∃ r, ∀ (E : Engine) (s : Sys E), compatDispatch config method params s = (r, s) := by
  generalize hname : (stripPrefix "aria2." method).getD method = name
  have hauth := authorize_of_secretless h name
  by_cases hsystem : startsWith "system." name = true
  · rw [if_pos hsystem] at hauth
    by_cases hmulti : name = "system.multicall"
    · cases hcalls : (params[0]?).bind Json.asArray with
      | none =>
        refine ⟨.error (.method "参数 0（calls 数组）缺失"), fun E s => ?_⟩
        rw [compatDispatch_eq]
        simp only [hname, hsecret, hauth, if_pos hmulti, hcalls]
      | some calls =>
        obtain ⟨v, hv, hvarr⟩ := Option.bind_eq_some_iff.mp hcalls
        obtain ⟨r, hr⟩ := hmulticall calls (sizeOf_calls hauth hcalls) fun c hc =>
          (h v (List.mem_of_getElem? hv)).of_asArray (hvarr ▸ hc)
        refine ⟨r, fun E s => ?_⟩
        rw [compatDispatch_eq]
        simp only [hname, hsecret, hauth, if_pos hmulti, hcalls]
        exact hr E s
    · by_cases hlist : name = "system.listMethods"
      · refine ⟨.ok (.arr (supportedMethods.map .str)), fun E s => ?_⟩
        rw [compatDispatch_eq]
        simp only [hname, hsecret, hauth, if_neg hmulti, if_pos hlist]
      · by_cases hnote : name = "system.listNotifications"
        · refine ⟨.ok (.arr ((notifications.map ("aria2." ++ ·)).map .str)), fun E s => ?_⟩
          rw [compatDispatch_eq]
          simp only [hname, hsecret, hauth, if_neg hmulti, if_neg hlist, if_pos hnote]
        · refine ⟨.error .methodNotFound, fun E s => ?_⟩
          rw [compatDispatch_eq]
          simp only [hname, hsecret, hauth, if_neg hmulti, if_neg hlist, if_neg hnote,
            compatMethod_of_system hsystem]
  · rw [if_neg hsystem] at hauth
    refine ⟨.error .unauthorized, fun E s => ?_⟩
    rw [compatDispatch_eq]
    simp only [hname, hsecret, hauth]

/-- Without the secret, a request of the frontends has one result, and nothing is done; and so it is
with the calls in it. -/
theorem inert_of_secretless (hsecret : config.secret = some want) (n : Nat) :
    (∀ params : List Json, sizeOf params < n → (∀ p ∈ params, Secretless want p) → ∀ method,
      ∃ r, ∀ (E : Engine) (s : Sys E), compatDispatch config method params s = (r, s)) ∧
    ∀ calls : List Json, sizeOf calls < n → (∀ c ∈ calls, Secretless want c) → ∀ results,
      ∃ r, ∀ (E : Engine) (s : Sys E), multicall config calls results s = (r, s) := by
  induction n with
  | zero => exact ⟨fun _ h => absurd h (Nat.not_lt_zero _), fun _ h => absurd h (Nat.not_lt_zero _)⟩
  | succ n ih =>
    constructor
    · intro params hsize h method
      exact compatDispatch_inert_of hsecret h method fun calls hlt hcalls =>
        ih.2 calls (by omega) hcalls []
    · intro calls hsize h results
      cases calls with
      | nil =>
        refine ⟨.ok (.arr results), fun E s => ?_⟩
        rw [multicall]
      | cons call rest =>
        rw [List.cons.sizeOf_spec] at hsize
        cases hentry : parseMulticallEntry call with
        | none =>
          refine ⟨.error (.method "multicall 条目格式非法"), fun E s => ?_⟩
          rw [multicall_cons, hentry]
        | some entry =>
          obtain ⟨name, params⟩ := entry
          have hlt := sizeOf_parseMulticallEntry hentry
          obtain ⟨r, hr⟩ := ih.1 params (by omega)
            (secretless_of_entry (h call List.mem_cons_self) hentry) name
          obtain ⟨r', hr'⟩ := ih.2 rest (by omega)
            (fun c hc => h c (List.mem_cons_of_mem call hc)) (results ++ [multicallResult r])
          refine ⟨r', fun E s => ?_⟩
          rw [multicall_cons, hentry]
          simp only [hr E s]
          exact hr' E s

theorem compatDispatch_inert (hsecret : config.secret = some want)
    (h : ∀ p ∈ params, Secretless want p) (method : String) :
    ∃ r, ∀ (E : Engine) (s : Sys E), compatDispatch config method params s = (r, s) :=
  (inert_of_secretless hsecret (sizeOf params + 1)).1 params (Nat.lt_succ_self _) h method

/-- Without the secret, a native request is refused. -/
theorem nativeDispatch_of_secretless (hsecret : config.secret = some want) {obj : Json}
    (h : Secretless want obj) (method : String) (E : Engine) (s : Sys E) :
    nativeDispatch config method obj s = (.error "Unauthorized", s) := by
  unfold nativeDispatch
  rw [if_neg]
  intro hall
  rw [hsecret, Option.all_some, decide_eq_true_iff] at hall
  obtain ⟨v, hget, hstr⟩ := Option.bind_eq_some_iff.mp hall
  exact h.1 (.of_get hget (.of_asStr hstr))

/-! ## Frames -/

/-- The protocol of a request, by its method. -/
def protoOne (req : Json) : Proto :=
  match (req.get? "method").bind Json.asStr with
  | none => .unknown
  | some method => if owns method then .native else .compat

/-- The first protocol that is known. -/
def firstKnown : List Proto → Proto
  | [] => .unknown
  | p :: rest => if p = .unknown then firstKnown rest else p

/-- The protocol of a frame: of the first request in it that names a method. -/
def protoOf : Body → Proto
  | .json (.arr items) => firstKnown (items.map protoOne)
  | .json req => protoOne req
  | .binary | .malformed => .unknown

/-- A request without the secret: its protocol, no subscription, and one answer. -/
theorem handleOne_of_secretless (hsecret : config.secret = some want) {req : Json}
    (h : Secretless want req) :
    ∃ response, ∀ (E : Engine) (s : Sys E),
      handleOne config req s = (⟨response, protoOne req, false⟩, s) := by
  unfold protoOne
  cases hmethod : (req.get? "method").bind Json.asStr with
  | none =>
    refine ⟨(req.get? "id").map fun id => frame id (.error "Invalid request"), fun E s => ?_⟩
    unfold handleOne
    simp only [hmethod]
  | some method =>
    have hparams : Secretless want ((req.get? "params").getD .null) := by
      cases hget : req.get? "params" with
      | none => exact ⟨nofun, nofun⟩
      | some v => exact h.of_leaves fun _ hleaf => .of_get hget hleaf
    by_cases howns : owns method = true
    · refine ⟨(req.get? "id").map fun id => frame id (.error "Unauthorized"), fun E s => ?_⟩
      unfold handleOne
      simp only [hmethod, if_pos howns, nativeDispatch_of_secretless hsecret hparams]
      rw [show (Except.error "Unauthorized" : Except String Json).toBool = false from rfl,
        Bool.and_false]
    · obtain ⟨r, hr⟩ := compatDispatch_inert hsecret (fun p hp => hparams.of_asArray hp) method
      refine ⟨(req.get? "id").map fun id => frame id (r.mapError CompatError.text), fun E s => ?_⟩
      unfold handleOne
      simp only [hmethod, if_neg howns, hr E s]

theorem handleItems_of_secretless (hsecret : config.secret = some want) {items : List Json}
    (h : ∀ v ∈ items, Secretless want v) (responses : List Json) (proto : Proto) :
    ∃ responses', ∀ (E : Engine) (s : Sys E), handleItems config items responses proto false s =
      ((responses', firstKnown (proto :: items.map protoOne), false), s) := by
  induction items generalizing responses proto with
  | nil =>
    refine ⟨responses, fun E s => ?_⟩
    cases proto <;> rfl
  | cons item rest ih =>
    obtain ⟨response, hone⟩ := handleOne_of_secretless hsecret (h item List.mem_cons_self)
    obtain ⟨responses', hrest⟩ := ih (fun v hv => h v (List.mem_cons_of_mem item hv))
      (responses ++ response.toList) (if proto = .unknown then protoOne item else proto)
    refine ⟨responses', fun E s => ?_⟩
    rw [handleItems, hone E s]
    simp only [Bool.or_false]
    rw [hrest E s]
    cases proto <;> rfl

/-- The value of a frame that is a text. -/
def Body.value : Body → Option Json
  | .json v => some v
  | .binary | .malformed => none

/-- A frame without the secret: its protocol, no subscription, and one answer. -/
theorem handle_of_secretless (hsecret : config.secret = some want) {body : Body}
    (h : ∀ v, body = .json v → Secretless want v) :
    ∃ response, ∀ (E : Engine) (s : Sys E),
      handle config body.value s = (⟨response, protoOf body, false⟩, s) := by
  cases body with
  | binary => exact ⟨_, fun E s => rfl⟩
  | malformed => exact ⟨_, fun E s => rfl⟩
  | json v =>
    have hv := h v rfl
    cases v with
    | arr items =>
      obtain ⟨responses, hitems⟩ := handleItems_of_secretless hsecret
        (fun v hmem => hv.of_mem hmem) [] .unknown
      refine ⟨if responses.isEmpty then none else some (.arr responses), fun E s => ?_⟩
      show handle config (some (.arr items)) s = _
      unfold handle
      simp only [hitems E s]
      rfl
    | null | bool b | int n | float text | str s | obj fields =>
      exact handleOne_of_secretless hsecret hv

/-! ## Connections -/

/-- The frames among what happens. -/
def bodiesOf {E : Engine} : List (Input E) → List Body
  | [] => []
  | .frame body :: is => body :: bodiesOf is
  | .event _ :: is | .engine _ :: is => bodiesOf is

/-- No frame has the secret. -/
def AllSecretless (want : String) (bodies : List Body) : Prop :=
  ∀ v, .json v ∈ bodies → Secretless want v

/-- An engine with one state. -/
def idle : Engine where
  State := Unit
  perform := fun _ s => (.error "", s)
  isBtTask := fun _ _ => false
  progressSnapshot := fun _ _ => none
  taskError := fun _ _ => none

/-- What a WebSocket connection to the idle engine answers to a frame. -/
def wsAnswer (config : Config) (body : Body) : List Json :=
  ((Connection.opened (E := idle) ()).step config (.frame body)).1

/-- What a POST to the idle engine is answered. -/
def httpAnswer (config : Config) (body : Body) : HttpResponse :=
  (post (E := idle) config body ⟨(), []⟩).1

section
variable {config : Config} {want : String} {E : Engine}

/-- The protocol of a connection after some frames. -/
def Proto.after (proto : Proto) (bodies : List Body) : Proto :=
  firstKnown (proto :: bodies.map protoOf)

theorem Proto.after_cons (proto : Proto) (body : Body) (bodies : List Body) :
    proto.after (body :: bodies) =
      (if proto = .unknown then protoOf body else proto).after bodies := by
  cases proto <;> rfl

variable {body : Body} {is : List (Input E)}

theorem step_of_secretless (hsecret : config.secret = some want)
    (h : ∀ v, body = .json v → Secretless want v) (c : Connection E) :
    c.step config (.frame body) = (wsAnswer config body,
      { c with proto := if c.proto = .unknown then protoOf body else c.proto }) := by
  obtain ⟨response, hresponse⟩ := handle_of_secretless hsecret h
  cases body with
  | binary =>
    obtain ⟨proto, nativeEvents, sys⟩ := c
    cases proto <;> rfl
  | malformed | json v =>
    unfold wsAnswer
    show c.answer config _ = (((Connection.opened (E := idle) ()).answer config _).1, _)
    unfold Connection.answer
    simp only [Body.value] at hresponse
    simp only [hresponse, Bool.or_false]

theorem post_of_secretless (hsecret : config.secret = some want)
    (h : ∀ v, body = .json v → Secretless want v) (s : Sys E) :
    post config body s = (httpAnswer config body, s) := by
  obtain ⟨response, hresponse⟩ := handle_of_secretless hsecret h
  cases body with
  | binary => rfl
  | malformed | json v =>
    unfold httpAnswer post
    simp only [Body.value] at hresponse
    simp only [hresponse]

theorem AllSecretless.head {bodies : List Body} (h : AllSecretless want (body :: bodies)) :
    ∀ v, body = .json v → Secretless want v :=
  fun v heq => h v (heq ▸ List.mem_cons_self)

theorem AllSecretless.tail {bodies : List Body} (h : AllSecretless want (body :: bodies)) :
    AllSecretless want bodies :=
  fun v hv => h v (List.mem_cons_of_mem body hv)

/-- What becomes of a connection without the secret: its protocol comes from the frames, and nothing
has been done. -/
theorem run_of_secretless (hsecret : config.secret = some want)
    (h : AllSecretless want (bodiesOf is)) (c : Connection E) :
    (c.run config is).2.proto = c.proto.after (bodiesOf is) ∧
      (c.run config is).2.nativeEvents = c.nativeEvents ∧
        (c.run config is).2.sys.performed = c.sys.performed := by
  induction is generalizing c with
  | nil =>
    refine ⟨?_, rfl, rfl⟩
    show c.proto = firstKnown [c.proto]
    cases c.proto <;> rfl
  | cons i rest ih =>
    cases i with
    | frame body =>
      have hstep := step_of_secretless hsecret h.head c
      obtain ⟨hproto, hnative, hperformed⟩ := ih h.tail (c.step config (.frame body)).2
      rw [hstep] at hproto hnative hperformed
      refine ⟨?_, ?_, ?_⟩
      · show ((c.step config (.frame body)).2.run config rest).2.proto = _
        rw [hstep, bodiesOf, Proto.after_cons]
        exact hproto
      · show ((c.step config (.frame body)).2.run config rest).2.nativeEvents = _
        rw [hstep]
        exact hnative
      · show ((c.step config (.frame body)).2.run config rest).2.sys.performed = _
        rw [hstep]
        exact hperformed
    | event ev => exact ih h c
    | engine state => exact ih h { c with sys := { c.sys with state } }

/-- As long as the protocol is not that of the frontends, a connection sends the answers alone. -/
theorem sent_of_secretless (hsecret : config.secret = some want)
    (h : AllSecretless want (bodiesOf is)) (c : Connection E) (hnative : c.nativeEvents = false)
    (hproto : c.proto.after (bodiesOf is) ≠ .compat) :
    (c.run config is).1 = (bodiesOf is).flatMap (wsAnswer config) := by
  induction is generalizing c with
  | nil => rfl
  | cons i rest ih =>
    cases i with
    | frame body =>
      have hstep := step_of_secretless hsecret h.head c
      rw [bodiesOf, Proto.after_cons] at hproto
      have hrest := ih h.tail (c.step config (.frame body)).2 (by rw [hstep]; exact hnative)
        (by rw [hstep]; exact hproto)
      show (c.step config (.frame body)).1 ++
        ((c.step config (.frame body)).2.run config rest).1 = _
      rw [hrest, bodiesOf, List.flatMap_cons, hstep]
    | event ev =>
      -- the protocol is unknown or native, and no events have been asked for
      have hnone : (c.step config (.event ev)).1 = [] := by
        rw [Connection.step]
        cases hc : c.proto with
        | unknown => rfl
        | native =>
          rw [hnative]
          rfl
        | compat =>
          rw [hc] at hproto
          exact absurd rfl hproto
      show (c.step config (.event ev)).1 ++ (c.run config rest).1 = _
      rw [hnone, List.nil_append]
      exact ih h c hnative hproto
    | engine state => exact ih h { c with sys := { c.sys with state } } hnative hproto

theorem Connection.run_append (c : Connection E) (is is' : List (Input E)) :
    (c.run config (is ++ is')).1 =
      (c.run config is).1 ++ ((c.run config is).2.run config is').1 := by
  induction is generalizing c with
  | nil => rfl
  | cons i rest ih =>
    show (c.step config i).1 ++ ((c.step config i).2.run config (rest ++ is')).1 =
      ((c.step config i).1 ++ _) ++ _
    rw [ih, List.append_assoc]
    rfl

theorem postAll_of_secretless (hsecret : config.secret = some want)
    (h : AllSecretless want (bodiesOf is)) (s : Sys E) :
    (postAll config s is).1 = (bodiesOf is).map (httpAnswer config) ∧
      (postAll config s is).2.performed = s.performed := by
  induction is generalizing s with
  | nil => exact ⟨rfl, rfl⟩
  | cons i rest ih =>
    cases i with
    | frame body =>
      obtain ⟨hsent, hperformed⟩ := ih h.tail s
      show (post config body s).1 :: (postAll config (post config body s).2 rest).1 = _ ∧
        (postAll config (post config body s).2 rest).2.performed = _
      rw [post_of_secretless hsecret h.head s]
      exact ⟨by rw [hsent]; rfl, hperformed⟩
    | event ev => exact ih h s
    | engine state => exact ih h { s with state }

theorem bodiesOf_append (is is' : List (Input E)) :
    bodiesOf (is ++ is') = bodiesOf is ++ bodiesOf is' := by
  induction is with
  | nil => rfl
  | cons i rest ih =>
    cases i with
    | frame body => exact congrArg (body :: ·) ih
    | event ev => exact ih
    | engine state => exact ih

theorem bodiesOf_map_frame (bodies : List Body) :
    bodiesOf (bodies.map (Input.frame (E := E))) = bodies := by
  induction bodies with
  | nil => rfl
  | cons body rest ih => exact congrArg (body :: ·) ih

end

/-- What the client receives over a WebSocket depends on its frames alone. -/
def WsSilent (config : Config) (bodies : List Body) : Prop :=
  ∀ (E : Engine) (s₁ s₂ : E.State) (is₁ is₂ : List (Input E)), bodiesOf is₁ = bodies →
    bodiesOf is₂ = bodies →
      ((Connection.opened s₁).run config is₁).1 = ((Connection.opened s₂).run config is₂).1

/-- Where the protocol is that of the frontends, the next start of a task is sent. -/
theorem not_wsSilent (hsecret : config.secret = some want) {bodies : List Body}
    (h : AllSecretless want bodies) (hproto : Proto.unknown.after bodies = .compat) :
    ¬ WsSilent config bodies := by
  intro hsilent
  let is : List (Input idle) := bodies.map .frame
  have hbodies : bodiesOf is = bodies := bodiesOf_map_frame bodies
  have hmore : bodiesOf (is ++ [.event ("start", "")]) = bodies := by
    rw [bodiesOf_append, hbodies]
    exact List.append_nil bodies
  have hsame := hsilent idle () () is (is ++ [.event ("start", "")]) hbodies hmore
  rw [Connection.run_append] at hsame
  obtain ⟨hend, -⟩ := run_of_secretless hsecret (hbodies.symm ▸ h)
    (Connection.opened (E := idle) ())
  rw [hbodies] at hend
  have hcompat : ((Connection.opened (E := idle) ()).run config is).2.proto = .compat :=
    hend.trans hproto
  have hsent : (((Connection.opened (E := idle) ()).run config is).2.run config
      [.event ("start", "")]).1.length = 1 := by
    generalize ((Connection.opened (E := idle) ()).run config is).2 = c at hcompat ⊢
    rw [Connection.run, Connection.step, hcompat]
    rfl
  have hlength := congrArg List.length hsame
  rw [List.length_append, hsent] at hlength
  omega

/-- **Secrecy**, exactly.  With a secret configured, and no frame that has it: no function of the
engine is called; what POSTs receive depends on the frames alone; and so does what a WebSocket
receives, if and only if the first request that names a method is not one of the frontends. -/
theorem secretKept_iff {config : Config} {want : String} (hsecret : config.secret = some want)
    {bodies : List Body} (h : AllSecretless want bodies) :
    (∀ (E : Engine) (s : E.State) (is : List (Input E)), bodiesOf is = bodies →
      ((Connection.opened s).run config is).2.sys.performed = [] ∧
        (postAll config ⟨s, []⟩ is).2.performed = []) ∧
    (∀ (E : Engine) (s₁ s₂ : E.State) (is₁ is₂ : List (Input E)), bodiesOf is₁ = bodies →
      bodiesOf is₂ = bodies →
        (postAll config ⟨s₁, []⟩ is₁).1 = (postAll config ⟨s₂, []⟩ is₂).1) ∧
    (WsSilent config bodies ↔ firstKnown (bodies.map protoOf) ≠ .compat) := by
  refine ⟨fun E s is his => ?_, fun E s₁ s₂ is₁ is₂ h₁ h₂ => ?_, fun hsilent hcompat => ?_,
    fun hproto E s₁ s₂ is₁ is₂ h₁ h₂ => ?_⟩
  · exact ⟨(run_of_secretless hsecret (his ▸ h) (Connection.opened s)).2.2,
      (postAll_of_secretless hsecret (his ▸ h) _).2⟩
  · rw [(postAll_of_secretless hsecret (h₁.symm ▸ h) _).1,
      (postAll_of_secretless hsecret (h₂.symm ▸ h) _).1, h₁, h₂]
  · exact not_wsSilent hsecret h hcompat hsilent
  · rw [sent_of_secretless hsecret (h₁.symm ▸ h) (Connection.opened s₁) rfl (h₁.symm ▸ hproto),
      sent_of_secretless hsecret (h₂.symm ▸ h) (Connection.opened s₂) rfl (h₂.symm ▸ hproto),
      h₁, h₂]

/-- An engine with a secret. -/
def guarded : Config where
  secret := some "s3cret"
  lan := false

/-- A request that names a method and has an id, and no more. -/
def bareRequest (method : String) : Json := .obj [("id", .int 1), ("method", .str method)]

theorem secretless_bareRequest {method : String} (h : method ≠ want)
    (htoken : method ≠ "token:" ++ want) : Secretless want (bareRequest method) := by
  have hleaf : ∀ t, (bareRequest method).Leaf t → method = t := by
    rintro t (_ | _ | ⟨hmem, hf⟩)
    rcases List.mem_cons.mp hmem with rfl | hmem
    · cases hf
    · obtain rfl := List.mem_singleton.mp hmem
      cases hf
      rfl
  exact ⟨fun hl => h (hleaf _ hl), fun hl => htoken (hleaf _ hl)⟩

/-- Without credentials, a native request is refused, and no event follows. -/
theorem native_silent :
    WsSilent guarded [.json (bareRequest "engine.getVersion"), .malformed,
      .json (bareRequest "aria2.getVersion")] := by
  refine (@secretKept_iff guarded "s3cret" rfl _ fun v hv => ?_).2.2.mpr (by decide +kernel)
  rcases List.mem_cons.mp hv with heq | hv
  · cases heq
    exact secretless_bareRequest (by decide) (by decide)
  · rcases List.mem_cons.mp hv with heq | hv
    · cases heq
    · cases List.mem_singleton.mp hv
      exact secretless_bareRequest (by decide) (by decide)

/-- **What is wrong.**  A request of the frontends without credentials is refused, and the events
come all the same. -/
theorem refused_but_told :
    Secretless "s3cret" (bareRequest "aria2.getVersion") ∧
      ¬ WsSilent guarded [.json (bareRequest "aria2.getVersion")] := by
  have hsecretless : Secretless "s3cret" (bareRequest "aria2.getVersion") :=
    secretless_bareRequest (by decide) (by decide)
  refine ⟨hsecretless, @not_wsSilent guarded "s3cret" rfl _ (fun v hv => ?_) (by decide +kernel)⟩
  cases List.mem_singleton.mp hv
  exact hsecretless

end XferRust.Rpc
