import XferRust.Swarm.MetadataTransfer

/-! # The installation of metadata

Every session of a magnet link without metadata asks its peer for them.  It looks at
`has_metadata`, waits for a message, and takes the message as it comes; a piece that completes
the collection is followed by `install_metadata`, which opens the piece store and puts it, the
flags of the verification and the metadata into the engine.  A step here is what one task does
under one lock, so the runs are all the interleavings of the sessions, of the verification, and
of the pieces that the download completes.

Between the look and the message another session can have installed the metadata already.  The
collection is still complete then, and one late piece completes it once more.
-/
namespace XferRust.Swarm

open Bencode

/-- The piece store: which of the stores that were put into the engine it is, and its bitmap. -/
structure InstalledStore where
  serial : Nat
  bits : List Bool
  deriving DecidableEq

/-- The store that `install_metadata` opens, and what it finds on the disk. -/
structure OpenedStore where
  bits : List Bool
  /-- `restore_resume` has restored the bitmap. -/
  restored : Bool
  existingBefore : Bool

/-- `needs_verify`. -/
def OpenedStore.needsVerify (o : OpenedStore) : Bool := !o.restored && o.existingBefore

/-- What `install_metadata` does next. -/
inductive Stage where
  | flags
  | verifiedBitfield
  | store
  | metadata

/-- Where the task of a session is in `run_metadata_exchange`. -/
inductive Exchange (Hash : Type) where
  | outside
  /-- The extension handshake. -/
  | handshake
  /-- The top of the loop. -/
  | looping
  /-- There were no metadata; the task waits for a message. -/
  | reading
  /-- The collection was complete and wrong, and is about to be emptied. -/
  | resetting
  /-- The loop has returned an error; the release of the requests is next. -/
  | leaving
  /-- `install_metadata`, once it has its store. -/
  | installing (stage : Stage) (m : TorrentMeta Hash) (o : OpenedStore)

/-- The task is in `install_metadata`. -/
def Exchange.installs {Hash : Type} : Exchange Hash → Bool
  | .installing _ _ _ => true
  | _ => false

/-- The task has put its store into the engine, and not yet its metadata. -/
def Exchange.stored {Hash : Type} : Exchange Hash → Bool
  | .installing .metadata _ _ => true
  | _ => false

/-- The part of a magnet engine that the installation changes. -/
structure Magnet (Hash : Type) where
  metadata : MetadataAccum
  /-- `meta`. -/
  info : Option (TorrentMeta Hash)
  store : Option InstalledStore
  /-- How many stores were put into the engine. -/
  opened : Nat
  verifiedBitfield : List Bool
  verifyExisting : Bool
  verifying : Bool
  sessions : List (Exchange Hash)

namespace Magnet

inductive Event where
  /-- `run_metadata_exchange` begins. -/
  | enter (i : Nat)
  /-- The handshake is done: the request for the first piece. -/
  | askFirst (i : Nat)
  /-- A request for one more piece. -/
  | next (i : Nat)
  /-- The top of the loop: is there metadata? -/
  | check (i : Nat)
  /-- A `ut_metadata` message.  When it completes metadata that pass, `opened` is the store that
  `install_metadata` opens for them, unless the disk fails. -/
  | receive (i : Nat) (payload : List UInt8) (opened : Option OpenedStore)
  /-- The next step of a reset or of an installation. -/
  | proceed (i : Nat)
  /-- A timeout, the end of the connection, or the shutdown. -/
  | fail (i : Nat)
  | release (i : Nat)
  /-- `accept_piece`. -/
  | accept (p : Nat)
  /-- `verify_existing_data` begins. -/
  | verify
  /-- `verify_existing_data` ends, with the bitmap that it found. -/
  | verified (bits : Option (List Bool))

/-- The events of the exchange of metadata. -/
def Event.ofExchange : Event → Bool
  | .accept _ | .verify | .verified _ => false
  | _ => true

section
variable {Hash : Type}

/-- An engine for any number of peers, with the metadata of a saved torrent when there is one. -/
def start (peers : Nat) (saved : Option (TorrentMeta Hash × OpenedStore)) : Magnet Hash where
  metadata := .empty
  info := saved.map Prod.fst
  store := saved.map fun s => { serial := 0, bits := s.2.bits }
  opened := if saved.isSome then 1 else 0
  verifiedBitfield := (saved.map fun s => if s.2.restored then s.2.bits else []).getD []
  verifyExisting := (saved.map fun s => s.2.needsVerify).getD false
  verifying := (saved.map fun s => s.2.needsVerify).getD false
  sessions := List.replicate peers .outside

def setSession (s : Magnet Hash) (i : Nat) (x : Exchange Hash) : Magnet Hash :=
  { s with sessions := s.sessions.set i x }

/-- One step of `install_metadata`. -/
def install (s : Magnet Hash) (i : Nat) (m : TorrentMeta Hash) (o : OpenedStore) :
    Stage → Magnet Hash
  | .flags =>
    let s := if o.needsVerify then { s with verifyExisting := true, verifying := true } else s
    s.setSession i (.installing .verifiedBitfield m o)
  | .verifiedBitfield =>
    { s with verifiedBitfield := if o.restored then o.bits else [] }.setSession i
      (.installing .store m o)
  | .store =>
    { s with
      store := some { serial := s.opened, bits := o.bits }
      opened := s.opened + 1 }.setSession i (.installing .metadata m o)
  | .metadata => { s with info := some m }.setSession i .outside

variable [DecidableEq Hash] (sha1 : List UInt8 → Hash) (decodeText : List UInt8 → String)
  (infoHash : Hash)

/-- `handle_metadata_payload` in session `i`, up to the first lock that it takes again. -/
def receive (s : Magnet Hash) (i : Nat) (payload : List UInt8) (opened : Option OpenedStore) :
    Magnet Hash :=
  match parsePayload payload with
  | .bad _ => s.setSession i .leaving
  | .reject piece =>
    let requested := match piece with
      | some p => s.metadata.requested.filter (· ≠ p)
      | none => s.metadata.requested
    { s with metadata := { s.metadata with requested } }.setSession i .leaving
  | .other => s.setSession i .looping
  | .data d =>
    let md := s.metadata.collect d.totalSize d.piece d.bytes
    let s := { s with metadata := md }
    match md.assemble with
    | none => s.setSession i .looping
    | some assembled =>
      match judge sha1 decodeText infoHash assembled, opened with
      | .error _, _ => s.setSession i .resetting
      | .ok _, none => s.setSession i .leaving
      | .ok m, some o => s.setSession i (.installing .flags m o)

/-- One step of the engine. -/
def step (s : Magnet Hash) : Event → Option (Magnet Hash)
  | .enter i =>
    match s.sessions[i]? with
    | some .outside => if s.info.isSome then none else some (s.setSession i .handshake)
    | _ => none
  | .askFirst i =>
    match s.sessions[i]? with
    | some .handshake =>
      some ({ s with metadata := s.metadata.askFirst }.setSession i .looping)
    | _ => none
  | .next i =>
    match s.sessions[i]? with
    | some .looping => some { s with metadata := s.metadata.nextMetadataPiece.1 }
    | _ => none
  | .check i =>
    match s.sessions[i]? with
    | some .looping => some (s.setSession i (if s.info.isSome then .outside else .reading))
    | _ => none
  | .receive i payload opened =>
    match s.sessions[i]? with
    | some .reading => some (s.receive sha1 decodeText infoHash i payload opened)
    | _ => none
  | .proceed i =>
    match s.sessions[i]? with
    | some .resetting => some ({ s with metadata := .empty }.setSession i .leaving)
    | some (.installing stage m o) => some (s.install i m o stage)
    | _ => none
  | .fail i =>
    match s.sessions[i]? with
    | some .handshake | some .looping | some .reading => some (s.setSession i .leaving)
    | _ => none
  | .release i =>
    match s.sessions[i]? with
    | some .leaving =>
      some ({ s with metadata := s.metadata.releaseUnreceived }.setSession i .outside)
    | _ => none
  | .accept p =>
    some { s with store := s.store.map fun st => { st with bits := st.bits.set p true } }
  | .verify =>
    if s.verifyExisting then some { s with verifyExisting := false }
    else some { s with verifying := false }
  | .verified bits =>
    some { s with
      store := s.store.map fun st => { st with bits := bits.getD st.bits }
      verifiedBitfield := bits.getD s.verifiedBitfield
      verifying := false }

/-! ## The condition -/

/-- The metadata that a payload completes: what is collected then is complete, and passes. -/
def completed (md : MetadataAccum) (payload : List UInt8) : Option (TorrentMeta Hash) :=
  match parsePayload payload with
  | .data d =>
    (md.collect d.totalSize d.piece d.bytes).assemble.bind fun assembled =>
      (judge sha1 decodeText infoHash assembled).toOption
  | _ => none

/-- Metadata that pass are completed, and a store is opened for them, only as long as there are
none and no other session installs them. -/
def CompletesFirst (s : Magnet Hash) : Event → Prop
  | .receive _ payload opened =>
    (completed sha1 decodeText infoHash s.metadata payload).isSome → opened.isSome →
      s.info.isSome = false ∧ (s.sessions.all fun x => !x.installs) = true
  | _ => True

instance decidableCompletesFirst (s : Magnet Hash) (e : Event) :
    Decidable (CompletesFirst sha1 decodeText infoHash s e) := by
  cases e with
  | receive i payload opened =>
    exact inferInstanceAs (Decidable
      ((completed sha1 decodeText infoHash s.metadata payload).isSome = true →
        opened.isSome = true →
        s.info.isSome = false ∧ (s.sessions.all fun x => !x.installs) = true))
  | _ => exact .isTrue trivial

/-- A step of the exchange of metadata, once they are installed, changes neither the store nor its
bitmap, and does not have the data verified again. -/
def LeftAlone (s : Magnet Hash) (e : Event) : Prop :=
  e.ofExchange = true → s.info.isSome → ∀ t, step sha1 decodeText infoHash s e = some t →
    t.store = s.store ∧ t.verifiedBitfield = s.verifiedBitfield ∧
      t.verifyExisting = s.verifyExisting ∧ t.verifying = s.verifying

/-! ## What a step does -/

variable {sha1 decodeText infoHash}

/-- Everything but the collection and the sessions is as it was. -/
structure Quiet (s t : Magnet Hash) : Prop where
  info : t.info = s.info
  store : t.store = s.store
  opened : t.opened = s.opened
  verifiedBitfield : t.verifiedBitfield = s.verifiedBitfield
  verifyExisting : t.verifyExisting = s.verifyExisting
  verifying : t.verifying = s.verifying

variable (sha1 decodeText infoHash) in
/-- What a step does to the sessions and to the rest. -/
inductive Effect (s : Magnet Hash) : Event → Magnet Hash → Prop
  /-- A session goes on, outside the installation. -/
  | goesOn {e t i x x'} (hx : s.sessions[i]? = some x) (out : x.installs = false)
      (out' : x'.installs = false) (sessions : t.sessions = s.sessions.set i x')
      (quiet : Quiet s t) : Effect s e t
  /-- A payload completes metadata, and a session begins to install them. -/
  | completes {i payload o m t} (hx : s.sessions[i]? = some .reading)
      (hm : (completed sha1 decodeText infoHash s.metadata payload).isSome)
      (sessions : t.sessions = s.sessions.set i (.installing .flags m o))
      (quiet : Quiet s t) : Effect s (.receive i payload (some o)) t
  /-- The installation goes on. -/
  | installs {i stage m o} (hx : s.sessions[i]? = some (.installing stage m o)) :
      Effect s (.proceed i) (s.install i m o stage)
  /-- A request for one more piece. -/
  | asks {i t} (sessions : t.sessions = s.sessions) (quiet : Quiet s t) : Effect s (.next i) t
  /-- The download and the verification. -/
  | other {e t} (he : e.ofExchange = false) (sessions : t.sessions = s.sessions)
      (info : t.info = s.info) (opened : t.opened = s.opened) : Effect s e t

theorem receive_effect {s : Magnet Hash} {i : Nat} {payload : List UInt8}
    {opened : Option OpenedStore} (hx : s.sessions[i]? = some .reading) :
    Effect sha1 decodeText infoHash s
      (.receive i payload opened) (s.receive sha1 decodeText infoHash i payload opened) := by
  rw [receive]
  split
  · exact .goesOn hx rfl rfl rfl ⟨rfl, rfl, rfl, rfl, rfl, rfl⟩
  · exact .goesOn hx rfl rfl rfl ⟨rfl, rfl, rfl, rfl, rfl, rfl⟩
  · exact .goesOn hx rfl rfl rfl ⟨rfl, rfl, rfl, rfl, rfl, rfl⟩
  · rename_i d hd
    dsimp only
    split
    · exact .goesOn hx rfl rfl rfl ⟨rfl, rfl, rfl, rfl, rfl, rfl⟩
    · rename_i assembled hassembled
      split
      · exact .goesOn hx rfl rfl rfl ⟨rfl, rfl, rfl, rfl, rfl, rfl⟩
      · exact .goesOn hx rfl rfl rfl ⟨rfl, rfl, rfl, rfl, rfl, rfl⟩
      · rename_i m o hjudge
        refine .completes hx ?_ rfl ⟨rfl, rfl, rfl, rfl, rfl, rfl⟩
        rw [completed, hd]
        dsimp only
        rw [hassembled, Option.bind_some, hjudge]
        rfl

theorem step_effect {s t : Magnet Hash} {e : Event}
    (h : step sha1 decodeText infoHash s e = some t) : Effect sha1 decodeText infoHash s e t := by
  have quiet : Quiet s s := ⟨rfl, rfl, rfl, rfl, rfl, rfl⟩
  cases e with
  | enter i =>
    dsimp only [step] at h
    split at h
    · rename_i hx
      split at h
      · cases h
      · obtain rfl := Option.some.inj h
        exact .goesOn hx rfl rfl rfl ⟨rfl, rfl, rfl, rfl, rfl, rfl⟩
    · cases h
  | askFirst i =>
    dsimp only [step] at h
    split at h
    · rename_i hx
      obtain rfl := Option.some.inj h
      exact .goesOn hx rfl rfl rfl ⟨rfl, rfl, rfl, rfl, rfl, rfl⟩
    · cases h
  | next i =>
    dsimp only [step] at h
    split at h
    · obtain rfl := Option.some.inj h
      exact .asks rfl ⟨rfl, rfl, rfl, rfl, rfl, rfl⟩
    · cases h
  | check i =>
    dsimp only [step] at h
    split at h
    · rename_i hx
      obtain rfl := Option.some.inj h
      refine .goesOn hx rfl ?_ rfl ⟨rfl, rfl, rfl, rfl, rfl, rfl⟩
      split <;> rfl
    · cases h
  | receive i payload opened =>
    dsimp only [step] at h
    split at h
    · rename_i hx
      obtain rfl := Option.some.inj h
      exact receive_effect hx
    · cases h
  | proceed i =>
    dsimp only [step] at h
    split at h
    · rename_i hx
      obtain rfl := Option.some.inj h
      exact .goesOn hx rfl rfl rfl ⟨rfl, rfl, rfl, rfl, rfl, rfl⟩
    · rename_i hx
      obtain rfl := Option.some.inj h
      exact .installs hx
    · cases h
  | fail i =>
    dsimp only [step] at h
    split at h
    · rename_i hx
      obtain rfl := Option.some.inj h
      exact .goesOn hx rfl rfl rfl ⟨rfl, rfl, rfl, rfl, rfl, rfl⟩
    · rename_i hx
      obtain rfl := Option.some.inj h
      exact .goesOn hx rfl rfl rfl ⟨rfl, rfl, rfl, rfl, rfl, rfl⟩
    · rename_i hx
      obtain rfl := Option.some.inj h
      exact .goesOn hx rfl rfl rfl ⟨rfl, rfl, rfl, rfl, rfl, rfl⟩
    · cases h
  | release i =>
    dsimp only [step] at h
    split at h
    · rename_i hx
      obtain rfl := Option.some.inj h
      exact .goesOn hx rfl rfl rfl ⟨rfl, rfl, rfl, rfl, rfl, rfl⟩
    · cases h
  | accept p =>
    obtain rfl := Option.some.inj h
    exact .other rfl rfl rfl rfl
  | verify =>
    dsimp only [step] at h
    split at h
    · obtain rfl := Option.some.inj h
      exact .other rfl rfl rfl rfl
    · obtain rfl := Option.some.inj h
      exact .other rfl rfl rfl rfl
  | verified bits =>
    obtain rfl := Option.some.inj h
    exact .other rfl rfl rfl rfl

end

/-! ## One installation -/

section
variable {Hash : Type}

theorem stored_of_installs {x : Exchange Hash} (h : x.installs = false) : x.stored = false := by
  cases x with
  | installing stage m o => cases h
  | _ => rfl

variable {i : Nat} {x' : Exchange Hash}

/-- The session that is set, or one of the others. -/
theorem set_cases {xs : List (Exchange Hash)} {j : Nat} {y : Exchange Hash}
    (h : (xs.set i x')[j]? = some y) : (j = i ∧ y = x') ∨ (j ≠ i ∧ xs[j]? = some y) := by
  rw [List.getElem?_set] at h
  split at h
  · rename_i hij
    split at h
    · exact .inl ⟨hij.symm, (Option.some.inj h).symm⟩
    · cases h
  · rename_i hij
    exact .inr ⟨fun hji => hij hji.symm, h⟩

/-- One session installs, none does once there are metadata, and a store was put into the engine
only when there are metadata or about to be. -/
structure Sole (s : Magnet Hash) : Prop where
  one : ∀ (i j : Nat) (x y : Exchange Hash), s.sessions[i]? = some x → s.sessions[j]? = some y →
    x.installs → y.installs → i = j
  apart : s.info.isSome → ∀ (i : Nat) (x : Exchange Hash), s.sessions[i]? = some x →
    x.installs = false
  fresh : s.info.isSome = false →
    (∀ (i : Nat) (x : Exchange Hash), s.sessions[i]? = some x → x.stored = false) → s.opened = 0
  once : s.opened ≤ 1

theorem sole_start (peers : Nat) (saved : Option (TorrentMeta Hash × OpenedStore)) :
    Sole (start peers saved) := by
  have hout : ∀ (i : Nat) (x : Exchange Hash),
      (List.replicate peers (.outside : Exchange Hash))[i]? = some x → x = .outside :=
    fun i x hx => List.eq_of_mem_replicate (List.mem_of_getElem? hx)
  constructor
  · intro i j x y hx _ hi _
    rw [hout i x hx] at hi
    cases hi
  · intro _ i x hx
    rw [hout i x hx]
    rfl
  · intro hnone _
    cases saved with
    | none => rfl
    | some p => cases hnone
  · cases saved with
    | none => exact Nat.zero_le 1
    | some p => exact Nat.le_refl 1

variable {s t : Magnet Hash}

/-- A session goes on outside the installation. -/
theorem Sole.goesOn {x : Exchange Hash} (h : Sole s) (hx : s.sessions[i]? = some x)
    (out : x.installs = false) (out' : x'.installs = false)
    (sessions : t.sessions = s.sessions.set i x') (info : t.info = s.info)
    (opened : t.opened = s.opened) : Sole t := by
  constructor
  · intro j k y z hy hz hj hk
    rw [sessions] at hy hz
    rcases set_cases hy with ⟨_, rfl⟩ | ⟨_, hy⟩
    · rw [out'] at hj
      cases hj
    · rcases set_cases hz with ⟨_, rfl⟩ | ⟨_, hz⟩
      · rw [out'] at hk
        cases hk
      · exact h.one j k y z hy hz hj hk
  · intro hsome j y hy
    rw [sessions] at hy
    rw [info] at hsome
    rcases set_cases hy with ⟨_, rfl⟩ | ⟨_, hy⟩
    · exact out'
    · exact h.apart hsome j y hy
  · intro hnone hall
    rw [info] at hnone
    rw [opened]
    refine h.fresh hnone fun j y hy => ?_
    by_cases hji : j = i
    · subst hji
      rw [hx] at hy
      exact stored_of_installs (Option.some.inj hy ▸ out)
    · refine hall j y ?_
      rw [sessions, List.getElem?_set_ne (Ne.symm hji)]
      exact hy
  · rw [opened]
    exact h.once

/-- A session begins to install when none does and there are no metadata. -/
theorem Sole.begins (h : Sole s) (hnone : s.info.isSome = false)
    (hall : (s.sessions.all fun y => !y.installs) = true)
    (sessions : t.sessions = s.sessions.set i x') (info : t.info = s.info)
    (opened : t.opened = s.opened) : Sole t := by
  have hfree : ∀ y ∈ s.sessions, y.installs = false := fun y hy =>
    Bool.not_eq_true' _ ▸ List.all_eq_true.mp hall y hy
  have hzero : s.opened = 0 := h.fresh hnone fun j y hy =>
    stored_of_installs (hfree y (List.mem_of_getElem? hy))
  constructor
  · intro j k y z hy hz hj hk
    rw [sessions] at hy hz
    rcases set_cases hy with ⟨rfl, _⟩ | ⟨_, hy⟩
    · rcases set_cases hz with ⟨rfl, _⟩ | ⟨_, hz⟩
      · rfl
      · rw [hfree z (List.mem_of_getElem? hz)] at hk
        cases hk
    · rw [hfree y (List.mem_of_getElem? hy)] at hj
      cases hj
  · intro hsome
    rw [info, hnone] at hsome
    cases hsome
  · intro _ _
    rw [opened]
    exact hzero
  · rw [opened, hzero]
    exact Nat.zero_le 1

variable {stage : Stage} {m : TorrentMeta Hash} {o : OpenedStore}

/-- When session `i` installs, there are no metadata yet, and no other session installs. -/
theorem Sole.of_installing (h : Sole s) (hx : s.sessions[i]? = some (.installing stage m o)) :
    s.info.isSome = false ∧
      ∀ (j : Nat) (y : Exchange Hash), j ≠ i → s.sessions[j]? = some y → y.installs = false := by
  constructor
  · cases hinfo : s.info.isSome with
    | false => rfl
    | true =>
      have := h.apart hinfo i _ hx
      cases this
  · intro j y hji hy
    cases hy' : y.installs with
    | false => rfl
    | true => exact absurd (h.one j i y _ hy hx hy' rfl) hji

/-- The one store is still to come when a session has not put its own into the engine. -/
theorem Sole.opened_eq_zero (h : Sole s) (hx : s.sessions[i]? = some (.installing stage m o))
    (hstage : (Exchange.installing stage m o).stored = false) : s.opened = 0 := by
  obtain ⟨hnone, hothers⟩ := h.of_installing hx
  refine h.fresh hnone fun j y hy => ?_
  by_cases hji : j = i
  · subst hji
    rw [hx] at hy
    exact Option.some.inj hy ▸ hstage
  · exact stored_of_installs (hothers j y hji hy)

/-- What a step of the installation leaves to show: how many stores there are. -/
theorem Sole.installed (h : Sole s) (hx : s.sessions[i]? = some (.installing stage m o))
    (sessions : t.sessions = s.sessions.set i x') (info : x'.installs = true → t.info = s.info)
    (fresh : t.info.isSome = false → x'.stored = false → t.opened = 0) (once : t.opened ≤ 1) :
    Sole t := by
  obtain ⟨hnone, hothers⟩ := h.of_installing hx
  have hlt : i < s.sessions.length := (List.getElem?_eq_some_iff.mp hx).1
  constructor
  · intro j k y z hy hz hj hk
    rw [sessions] at hy hz
    rcases set_cases hy with ⟨rfl, _⟩ | ⟨hne, hy⟩
    · rcases set_cases hz with ⟨rfl, _⟩ | ⟨hne, hz⟩
      · rfl
      · rw [hothers k z hne hz] at hk
        cases hk
    · rw [hothers j y hne hy] at hj
      cases hj
  · intro hsome j y hy
    rw [sessions] at hy
    rcases set_cases hy with ⟨_, rfl⟩ | ⟨hne, hy⟩
    · cases hy' : y.installs with
      | false => rfl
      | true =>
        rw [info hy', hnone] at hsome
        cases hsome
    · exact hothers j y hne hy
  · intro hnone' hall
    refine fresh hnone' (hall i x' ?_)
    rw [sessions, List.getElem?_set_self hlt]
  · exact once

theorem Sole.install (h : Sole s) (hx : s.sessions[i]? = some (.installing stage m o)) :
    Sole (s.install i m o stage) := by
  cases stage with
  | flags =>
    have hzero := h.opened_eq_zero hx rfl
    rw [Magnet.install]
    split
    · exact h.installed hx rfl (fun _ => rfl) (fun _ _ => hzero) h.once
    · exact h.installed hx rfl (fun _ => rfl) (fun _ _ => hzero) h.once
  | verifiedBitfield =>
    have hzero := h.opened_eq_zero hx rfl
    exact h.installed hx rfl (fun _ => rfl) (fun _ _ => hzero) h.once
  | store =>
    have hzero := h.opened_eq_zero hx rfl
    exact h.installed hx rfl (fun _ => rfl) (fun _ hstored => by cases hstored)
      (Nat.succ_le_succ (Nat.le_of_eq hzero))
  | metadata =>
    exact h.installed hx rfl nofun nofun h.once

variable [DecidableEq Hash] {sha1 : List UInt8 → Hash} {decodeText : List UInt8 → String}
  {infoHash : Hash}

/-- A step on the condition keeps the installation one. -/
theorem Sole.step {e : Event} (h : Sole s) (hfirst : CompletesFirst sha1 decodeText infoHash s e)
    (hstep : step sha1 decodeText infoHash s e = some t) : Sole t := by
  cases step_effect hstep with
  | goesOn hx out out' sessions quiet => exact h.goesOn hx out out' sessions quiet.info quiet.opened
  | completes hx hm sessions quiet =>
    obtain ⟨hnone, hfree⟩ := hfirst hm rfl
    exact h.begins hnone hfree sessions quiet.info quiet.opened
  | installs hx => exact h.install hx
  | asks sessions quiet =>
    exact ⟨sessions ▸ h.one, quiet.info ▸ sessions ▸ h.apart,
      quiet.info ▸ sessions ▸ quiet.opened ▸ h.fresh, quiet.opened ▸ h.once⟩
  | other _ sessions info opened =>
    exact ⟨sessions ▸ h.one, info ▸ sessions ▸ h.apart, info ▸ sessions ▸ opened ▸ h.fresh,
      opened ▸ h.once⟩

theorem Sole.leftAlone (e : Event) (h : Sole s) : LeftAlone sha1 decodeText infoHash s e := by
  intro he hsome t hstep
  cases step_effect hstep with
  | goesOn _ _ _ _ quiet =>
    exact ⟨quiet.store, quiet.verifiedBitfield, quiet.verifyExisting, quiet.verifying⟩
  | completes _ _ _ quiet =>
    exact ⟨quiet.store, quiet.verifiedBitfield, quiet.verifyExisting, quiet.verifying⟩
  | installs hx =>
    rw [(h.of_installing hx).1] at hsome
    cases hsome
  | asks _ quiet =>
    exact ⟨quiet.store, quiet.verifiedBitfield, quiet.verifyExisting, quiet.verifying⟩
  | other he' =>
    rw [he] at he'
    cases he'

/-- A message that is handled without interruption is `handle_metadata_payload`: what `receive`
leaves to be emptied is what the handler leaves empty. -/
theorem receive_refines (payload : List UInt8) (opened : Option OpenedStore)
    (hi : i < s.sessions.length) : let t := s.receive sha1 decodeText infoHash i payload opened
    (t.sessions[i]? = some .resetting ∧
        (handleMetadataPayload sha1 decodeText infoHash s.metadata payload).1 = .empty) ∨
      (handleMetadataPayload sha1 decodeText infoHash s.metadata payload).1 = t.metadata := by
  dsimp only
  rw [receive, handleMetadataPayload]
  cases parsePayload payload with
  | bad e => exact .inr rfl
  | reject piece => exact .inr rfl
  | other => exact .inr rfl
  | data d =>
    dsimp only
    split
    · rename_i hnone
      exact .inr (congrArg Prod.fst (settle_of_none hnone))
    · rename_i assembled hassembled
      split
      · rename_i hjudge
        refine .inl ⟨List.getElem?_set_self hi, ?_⟩
        exact congrArg Prod.fst (settle_of_error hassembled hjudge)
      · rename_i hjudge
        exact .inr (congrArg Prod.fst (settle_of_ok hassembled hjudge))
      · rename_i hjudge
        exact .inr (congrArg Prod.fst (settle_of_ok hassembled hjudge))

end

/-! ## Two runs -/

/-- What a first installation finds, and what a later one does. -/
def fresh : OpenedStore := { bits := [false], restored := false, existingBefore := false }

def again : OpenedStore := { bits := [false], restored := false, existingBefore := true }

/-- Two sessions ask for the one piece of `tinyInfo`, and both wait for it. -/
def asking : List Event :=
  [.enter 0, .askFirst 0, .check 0, .enter 1, .askFirst 1, .check 1]

/-- Session 0 gets it and installs the metadata; the one piece of the torrent is downloaded. -/
def installing : List Event :=
  [.receive 0 (dataPayload tinyInfo 0) (some fresh), .proceed 0, .proceed 0, .proceed 0,
    .proceed 0, .accept 0]

abbrev tinyStep : Magnet (List UInt8) → Event → Option (Magnet (List UInt8)) :=
  step Sha1.digest (fun _ => "a") (Sha1.digest tinyInfo)

open StepRun

/-- The peer of session 1 answers late: session 1 completes the metadata again and installs them
again, and the download starts from nothing. -/
def lateDuplicate : List Event :=
  [.receive 1 (dataPayload tinyInfo 0) (some again), .proceed 1, .proceed 1]

/-- What is seen of a run: whether there are metadata, the store, and the flag. -/
def seen (es : List Event) : Option (Bool × Option InstalledStore × Bool) :=
  (run tinyStep (start 2 none) es).map fun s => (s.info.isSome, s.store, s.verifying)

end Magnet

end XferRust.Swarm
