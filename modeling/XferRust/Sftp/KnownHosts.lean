import XferRust.Lib.StepRun

/-! # Host keys of SFTP servers

A connection asks the engine's file of known hosts for the host, then the user's, and writes the key
into the engine's file if neither knows the host.  These are three operations on files, without a
lock: other connections can take theirs in between, and so can a user who edits the files.

Where both files say one key of each host, and a connection that has found a host unknown goes on
only while no other key of it has come in, one key at most is accepted between two edits:
`pinned_of_clear_run`.  Two first connections at once are enough for two: `twoFirst_unpinned`.
-/
namespace XferRust.Sftp
open StepRun

/-! ## The files -/

/-- An entry of a file of known hosts. -/
structure KnownHost (κ : Type) where
  line : Nat
  host : String
  port : UInt16
  key : κ

/-- `Trust` -/
inductive Trust where
  | trusted
  | changed (line : Nat)
  | unknown

/-- Why a connection is refused: the texts of `HostKeyPolicy::check`. -/
inductive Refusal where
  | unreadable
  | storeChanged (line : Nat)
  | userChanged (line : Nat)
  | strictUnknown
  | unwritable
  deriving DecidableEq

/-- How far `HostKeyPolicy::check` has come. -/
inductive Checking where
  | started
  /-- The engine's file does not know the host. -/
  | storeUnknown
  /-- Neither file does. -/
  | unknown
  | accepted
  | refused (reason : Refusal)
  deriving DecidableEq

/-- A connection and the key that the server presents; `strict` as its policy has it. -/
structure Connection (κ : Type) where
  host : String
  port : UInt16
  strict : Bool
  key : κ
  checking : Checking

/-- Both files and all connections.  There is no user's file if there is no home directory, or if it
is the engine's. -/
structure Known (κ : Type) where
  store : List (KnownHost κ)
  user : Option (List (KnownHost κ))
  connections : List (Connection κ)
  /-- What has been accepted since the files were edited; the source has no such list. -/
  accepted : List (String × UInt16 × κ)

inductive Act where
  /-- The next file is read, or cannot be. -/
  | read (ok : Bool)
  /-- `learn_known_hosts_path` writes the line, if it does, and returns. -/
  | learn (line : Option Nat) (ok : Bool)

inductive Event (κ : Type) where
  | connect (host : String) (port : UInt16) (strict : Bool) (key : κ)
  | act (i : Nat) (a : Act)
  /-- A user edits the files. -/
  | edit (store : List (KnownHost κ)) (user : Option (List (KnownHost κ)))

section
variable {κ : Type} [DecidableEq κ]

/-- `known_host_keys_path`: the lines and keys of a host and port. -/
def knownHostKeys (file : List (KnownHost κ)) (host : String) (port : UInt16) : List (Nat × κ) :=
  (file.filter fun e => e.host = host ∧ e.port = port).map fun e => (e.line, e.key)

/-- `check_file`, by what is recorded. -/
def checkFile (recorded : List (Nat × κ)) (key : κ) : Trust :=
  match recorded with
  | [] => .unknown
  | (line, _) :: _ => if recorded.any fun r => r.2 = key then .trusted else .changed line

/-- What follows from a file: `changed` says how a change is reported, `next` what comes if the host
is unknown. -/
def Trust.next (changed : Nat → Refusal) (next : Checking) : Trust → Checking
  | .trusted => .accepted
  | .changed line => .refused (changed line)
  | .unknown => next

/-- What is next once the engine's file is read. -/
def Known.readStore (s : Known κ) (c : Connection κ) : Checking :=
  (checkFile (knownHostKeys s.store c.host c.port) c.key).next .storeChanged .storeUnknown

/-- What is next once the user's file is read. -/
def Known.readUser (s : Known κ) (c : Connection κ) : Checking :=
  match s.user with
  | none => .unknown
  | some user => (checkFile (knownHostKeys user c.host c.port) c.key).next .userChanged .unknown

/-- The files with the line that is learned, if one is. -/
def Known.append (s : Known κ) (c : Connection κ) : Option Nat → List (KnownHost κ)
  | none => s.store
  | some line => s.store ++ [{ line, host := c.host, port := c.port, key := c.key }]

/-- What `check` does next: the engine's file and how far it has come.  A call that succeeds has
written its line. -/
def Connection.step (c : Connection κ) (s : Known κ) : Act → Option (List (KnownHost κ) × Checking)
  | .read ok =>
    match c.checking with
    | .started => some (s.store, if ok then s.readStore c else .refused .unreadable)
    | .storeUnknown => some (s.store, if ok then s.readUser c else .refused .unreadable)
    | _ => none
  | .learn line ok =>
    match c.checking with
    | .unknown =>
      if c.strict then some (s.store, .refused .strictUnknown)
      else if ok && line.isNone then none
      else some (s.append c line, if ok then .accepted else .refused .unwritable)
    | _ => none

/-- The state after a step of connection `i`. -/
def Known.moved (s : Known κ) (i : Nat) (c : Connection κ)
    (r : List (KnownHost κ) × Checking) : Known κ :=
  { s with
    store := r.1
    connections := s.connections.set i { c with checking := r.2 }
    accepted := if r.2 = .accepted then (c.host, c.port, c.key) :: s.accepted else s.accepted }

def Known.step (s : Known κ) : Event κ → Option (Known κ)
  | .connect host port strict key =>
    some { s with
      connections := s.connections ++ [{ host, port, strict, key, checking := .started }] }
  | .act i a => (s.connections[i]?).bind fun c => (c.step s a).map (s.moved i c)
  | .edit store user => some { s with store, user, accepted := [] }

/-! ## Keys -/

/-- The keys that a file has for a host and port. -/
def keysOf (file : List (KnownHost κ)) (host : String) (port : UInt16) : List κ :=
  (knownHostKeys file host port).map Prod.snd

/-- The keys that the user's file has. -/
def userKeys (user : Option (List (KnownHost κ))) (host : String) (port : UInt16) : List κ :=
  user.elim [] fun file => keysOf file host port

/-- The keys of the file that decides: the engine's if it knows the host, or else the user's. -/
def decisive (store : List (KnownHost κ)) (user : Option (List (KnownHost κ))) (host : String)
    (port : UInt16) : List κ :=
  if keysOf store host port = [] then userKeys user host port else keysOf store host port

/-- The file that decides has one key at most of each host and port. -/
def Single (store : List (KnownHost κ)) (user : Option (List (KnownHost κ))) : Prop :=
  ∀ host port, ∀ k ∈ decisive store user host port, ∀ k' ∈ decisive store user host port, k = k'

omit [DecidableEq κ] in
theorem keysOf_append (file file' : List (KnownHost κ)) (host : String) (port : UInt16) :
    keysOf (file ++ file') host port = keysOf file host port ++ keysOf file' host port := by
  rw [keysOf, keysOf, keysOf, knownHostKeys, knownHostKeys, knownHostKeys, List.filter_append,
    List.map_append, List.map_append]

omit [DecidableEq κ] in
theorem keysOf_singleton_self (line : Nat) (host : String) (port : UInt16) (key : κ) :
    keysOf [{ line, host, port, key }] host port = [key] := by
  rw [keysOf, knownHostKeys, List.filter_cons_of_pos (by simp only [and_self, decide_true])]
  rfl

variable {host : String} {port : UInt16}

omit [DecidableEq κ] in
theorem keysOf_singleton_of_ne {line : Nat} {host' : String} {port' : UInt16} {key : κ}
    (h : ¬(host = host' ∧ port = port')) : keysOf [{ line, host, port, key }] host' port' = [] := by
  rw [keysOf, knownHostKeys, List.filter_cons_of_neg (by simpa only [decide_eq_true_eq] using h)]
  rfl

theorem checkFile_trusted {recorded : List (Nat × κ)} {key : κ}
    (h : checkFile recorded key = .trusted) : key ∈ recorded.map Prod.snd := by
  cases recorded with
  | nil => cases h
  | cons r rest =>
    unfold checkFile at h
    split at h
    · rename_i hnil
      cases hnil
    · split at h
      · rename_i hany
        obtain ⟨r', hr', hkey⟩ := List.any_eq_true.mp hany
        exact List.mem_map.mpr ⟨r', hr', of_decide_eq_true hkey⟩
      · cases h

theorem Trust.next_accepted {changed : Nat → Refusal} {next : Checking} {t : Trust}
    (hne : next ≠ .accepted) (h : t.next changed next = .accepted) : t = .trusted := by
  cases t with
  | trusted => rfl
  | changed line => cases h
  | unknown => exact absurd h hne

variable {s : Known κ} {c : Connection κ}

theorem mem_of_readStore (h : s.readStore c = .accepted) : c.key ∈ keysOf s.store c.host c.port :=
  checkFile_trusted (Trust.next_accepted (fun h => by cases h) h)

theorem mem_of_readUser (h : s.readUser c = .accepted) : c.key ∈ userKeys s.user c.host c.port := by
  unfold Known.readUser at h
  unfold userKeys
  cases huser : s.user with
  | none =>
    rw [huser] at h
    cases h
  | some user =>
    rw [huser] at h
    exact checkFile_trusted (Trust.next_accepted (fun h => by cases h) h)

/-! ## Runs in which no key comes in between -/

/-- A connection that the engine's file does not know is accepted by the user's, or learned, only
while no other key of its host has come in; and an edit leaves one key of each host. -/
def Clear (s : Known κ) : Event κ → Prop
  | .connect _ _ _ _ => True
  | .act i _ => ∀ c ∈ s.connections[i]?,
    (c.checking = .storeUnknown → s.readUser c = .accepted →
      ∀ k ∈ keysOf s.store c.host c.port, k = c.key) ∧
    (c.checking = .unknown → c.strict = false →
      (∀ k ∈ keysOf s.store c.host c.port, k = c.key) ∧
        ∀ k ∈ userKeys s.user c.host c.port, k = c.key)
  | .edit store user => Single store user

/-- **Pinned**: what has been accepted of a host since the last edit is one key. -/
def Known.Pinned (s : Known κ) : Prop :=
  ∀ host port k k', (host, port, k) ∈ s.accepted → (host, port, k') ∈ s.accepted → k = k'

/-- What each step keeps. -/
structure Known.Sound (s : Known κ) : Prop where
  single : Single s.store s.user
  /-- What has been accepted is in the file that decides. -/
  accepted : ∀ host port k, (host, port, k) ∈ s.accepted → k ∈ decisive s.store s.user host port

omit [DecidableEq κ] in
theorem Known.Sound.pinned (h : s.Sound) : s.Pinned :=
  fun host port k k' hk hk' =>
    h.single host port k (h.accepted host port k hk) k' (h.accepted host port k' hk')

variable {store : List (KnownHost κ)} {k : κ}
variable {user : Option (List (KnownHost κ))}

omit [DecidableEq κ] in
theorem mem_decisive_of_store (h : k ∈ keysOf store host port) :
    k ∈ decisive store user host port := by
  rw [decisive, if_neg (List.ne_nil_of_mem h)]
  exact h

omit [DecidableEq κ] in
theorem mem_decisive_of_user (h : k ∈ userKeys user host port)
    (hstore : ∀ k' ∈ keysOf store host port, k' = k) : k ∈ decisive store user host port := by
  rw [decisive]
  split
  · exact h
  · rename_i hne
    obtain ⟨k', hk'⟩ := List.exists_mem_of_ne_nil _ hne
    exact hstore k' hk' ▸ hk'

omit [DecidableEq κ] in
theorem mem_of_mem_decisive (h : k ∈ decisive store user host port) :
    k ∈ keysOf store host port ∨ k ∈ userKeys user host port := by
  rw [decisive] at h
  split at h
  · exact .inr h
  · exact .inl h

omit [DecidableEq κ] in
/-- A key that comes in, where neither file has another one. -/
theorem Known.Sound.append (h : s.Sound) (c : Connection κ) (line : Option Nat)
    (hstore : ∀ k ∈ keysOf s.store c.host c.port, k = c.key)
    (huser : ∀ k ∈ userKeys s.user c.host c.port, k = c.key) :
    ({ s with store := s.append c line } : Known κ).Sound := by
  cases line with
  | none => exact h
  | some line =>
    let new : KnownHost κ := { line, host := c.host, port := c.port, key := c.key }
    -- the keys of this host are this one, and those of other hosts are what they were
    have hsame : keysOf (s.store ++ [new]) c.host c.port =
        keysOf s.store c.host c.port ++ [c.key] := by
      rw [keysOf_append, keysOf_singleton_self]
    have hother : ∀ host port, ¬(c.host = host ∧ c.port = port) →
        decisive (s.store ++ [new]) s.user host port = decisive s.store s.user host port := by
      intro host port hne
      rw [decisive, decisive, keysOf_append, keysOf_singleton_of_ne hne, List.append_nil]
    have hall : ∀ k ∈ decisive (s.store ++ [new]) s.user c.host c.port, k = c.key := by
      intro k hk
      rcases mem_of_mem_decisive hk with hk | hk
      · rw [hsame] at hk
        rcases List.mem_append.mp hk with hk | hk
        · exact hstore k hk
        · exact List.mem_singleton.mp hk
      · exact huser k hk
    refine ⟨fun host port k hk k' hk' => ?_, fun host port k hk => ?_⟩
    · by_cases hpeer : c.host = host ∧ c.port = port
      · obtain ⟨rfl, rfl⟩ := hpeer
        exact (hall k hk).trans (hall k' hk').symm
      · change k ∈ decisive (s.store ++ [new]) s.user host port at hk
        change k' ∈ decisive (s.store ++ [new]) s.user host port at hk'
        rw [hother host port hpeer] at hk hk'
        exact h.single host port k hk k' hk'
    · have hold := h.accepted host port k hk
      show k ∈ decisive (s.store ++ [new]) s.user host port
      by_cases hpeer : c.host = host ∧ c.port = port
      · obtain ⟨rfl, rfl⟩ := hpeer
        have hkey : k = c.key := (mem_of_mem_decisive hold).elim (hstore k) (huser k)
        refine mem_decisive_of_store ?_
        rw [hsame, hkey]
        exact List.mem_append_right _ (List.mem_singleton_self _)
      · rw [hother host port hpeer]
        exact hold

omit [DecidableEq κ] in
/-- What a step does to the files, and which keys it accepts. -/
theorem Known.Sound.moved {i : Nat} {checking : Checking} (h : ({ s with store } : Known κ).Sound)
    (haccept : checking = .accepted → c.key ∈ decisive store s.user c.host c.port) :
    (s.moved i c (store, checking)).Sound := by
  refine ⟨h.single, fun host port k hk => ?_⟩
  replace hk : (host, port, k) ∈
    if checking = .accepted then (c.host, c.port, c.key) :: s.accepted else s.accepted := hk
  split at hk
  · rename_i hacc
    rcases List.mem_cons.mp hk with heq | hk
    · obtain ⟨hhost, heq⟩ := Prod.mk.inj heq
      obtain ⟨hport, hkey⟩ := Prod.mk.inj heq
      rw [hhost, hport, hkey]
      exact haccept hacc
    · exact h.accepted host port k hk
  · exact h.accepted host port k hk

/-- **A clear step keeps one key of each host.** -/
theorem Known.Sound.step {s' : Known κ} {e : Event κ} (h : s.Sound) (hclear : Clear s e)
    (hs : s.step e = some s') : s'.Sound := by
  cases e with
  | connect host port strict key =>
    obtain rfl := Option.some.inj hs
    exact ⟨h.single, h.accepted⟩
  | edit store user =>
    obtain rfl := Option.some.inj hs
    exact ⟨hclear, fun host port k hk => by cases hk⟩
  | act i a =>
    obtain ⟨c, hc, hs⟩ := Option.bind_eq_some_iff.mp hs
    obtain ⟨⟨store, checking⟩, hstep, rfl⟩ := Option.map_eq_some_iff.mp hs
    obtain ⟨hread, hlearn⟩ := hclear c hc
    cases a with
    | read ok =>
      dsimp only [Connection.step] at hstep
      split at hstep
      · obtain ⟨rfl, rfl⟩ := Prod.mk.inj (Option.some.inj hstep)
        refine h.moved fun hacc => mem_decisive_of_store ?_
        split at hacc
        · exact mem_of_readStore hacc
        · cases hacc
      · rename_i hphase
        obtain ⟨rfl, rfl⟩ := Prod.mk.inj (Option.some.inj hstep)
        refine h.moved fun hacc => ?_
        split at hacc
        · exact mem_decisive_of_user (mem_of_readUser hacc) (hread hphase hacc)
        · cases hacc
      · cases hstep
    | learn line ok =>
      dsimp only [Connection.step] at hstep
      split at hstep
      · rename_i hphase
        split at hstep
        · obtain ⟨rfl, rfl⟩ := Prod.mk.inj (Option.some.inj hstep)
          exact h.moved fun hacc => by cases hacc
        · rename_i hstrict
          obtain ⟨hstore, huser⟩ := hlearn hphase (Bool.eq_false_iff.mpr hstrict)
          split at hstep
          · cases hstep
          · rename_i hwritten
            obtain ⟨rfl, rfl⟩ := Prod.mk.inj (Option.some.inj hstep)
            refine (h.append c line hstore huser).moved fun hacc => mem_decisive_of_store ?_
            -- a call that has succeeded has written its line
            split at hacc
            · rename_i hok
              cases line with
              | none => exact absurd (by rw [hok]; rfl) hwritten
              | some line =>
                rw [Known.append, keysOf_append, keysOf_singleton_self]
                exact List.mem_append_right _ (List.mem_singleton_self _)
            · cases hacc
      · cases hstep

/-! ## Strict connections -/

/-- A strict connection that the step accepts presents a key that was in a file before. -/
def StrictStep (s s' : Known κ) : Prop :=
  ∀ (i : Nat) (c c' : Connection κ), s.connections[i]? = some c → s'.connections[i]? = some c' →
    c'.strict = true → c'.checking = .accepted → c.checking ≠ .accepted →
    c'.key ∈ keysOf s.store c'.host c'.port ∨ c'.key ∈ userKeys s.user c'.host c'.port

theorem accepted_of_step {a : Act} (h : c.step s a = some (store, .accepted))
    (hstrict : c.strict = true) :
    c.key ∈ keysOf s.store c.host c.port ∨ c.key ∈ userKeys s.user c.host c.port := by
  cases a with
  | read ok =>
    dsimp only [Connection.step] at h
    split at h
    · obtain ⟨-, hacc⟩ := Prod.mk.inj (Option.some.inj h)
      split at hacc
      · exact .inl (mem_of_readStore hacc)
      · cases hacc
    · obtain ⟨-, hacc⟩ := Prod.mk.inj (Option.some.inj h)
      split at hacc
      · exact .inr (mem_of_readUser hacc)
      · cases hacc
    · cases h
  | learn line ok =>
    dsimp only [Connection.step] at h
    split at h
    · rw [if_pos hstrict] at h
      obtain ⟨-, hacc⟩ := Prod.mk.inj (Option.some.inj h)
      cases hacc
    · cases h

theorem strictStep_of_step {s' : Known κ} {e : Event κ} (hs : s.step e = some s') :
    StrictStep s s' := by
  intro i c c' hc hc' hstrict hacc hnot
  cases e with
  | connect host port strict key =>
    obtain rfl := Option.some.inj hs
    have hlt := (List.getElem?_eq_some_iff.mp hc).1
    rw [List.getElem?_append_left hlt, hc] at hc'
    obtain rfl := Option.some.inj hc'
    exact absurd hacc hnot
  | edit store user =>
    obtain rfl := Option.some.inj hs
    obtain rfl := Option.some.inj (hc.symm.trans hc')
    exact absurd hacc hnot
  | act j a =>
    obtain ⟨d, hd, hs⟩ := Option.bind_eq_some_iff.mp hs
    obtain ⟨⟨store, checking⟩, hstep, rfl⟩ := Option.map_eq_some_iff.mp hs
    change (s.connections.set j { d with checking })[i]? = some c' at hc'
    rw [List.getElem?_set] at hc'
    split at hc'
    · rw [if_pos (List.getElem?_eq_some_iff.mp hd).1] at hc'
      obtain rfl := Option.some.inj hc'
      obtain rfl : checking = .accepted := hacc
      exact @accepted_of_step _ _ s d store a hstep hstrict
    · rw [hc] at hc'
      obtain rfl := Option.some.inj hc'
      exact absurd hacc hnot

/-- **One key of each host** is accepted between two edits, in a run in which no other key comes in
while a connection learns one; and a strict connection is accepted only with a key that was in a
file. -/
theorem pinned_of_clear_run (store : List (KnownHost κ)) (user : Option (List (KnownHost κ)))
    (es : List (Event κ)) (s : Known κ) (hsingle : Single store user)
    (hclear : Along Known.step Clear { store, user, connections := [], accepted := [] } es)
    (hrun : run Known.step { store, user, connections := [], accepted := [] } es = some s) :
    s.Pinned ∧ ∀ e s', s.step e = some s' → StrictStep s s' :=
  have hstart : ({ store, user, connections := [], accepted := [] } : Known κ).Sound :=
    ⟨hsingle, fun _ _ _ h => by cases h⟩
  ⟨(run_invariant (fun _ _ _ h hc hs => h.step hc hs) hstart hclear hrun).pinned,
    fun _ _ => strictStep_of_step⟩

/-! ## First connections -/

omit [DecidableEq κ] in
theorem exists_of_mem_keysOf {file : List (KnownHost κ)} (h : k ∈ keysOf file host port) :
    ∃ e ∈ file, e.host = host ∧ e.port = port := by
  obtain ⟨r, hr, -⟩ := List.mem_map.mp h
  obtain ⟨e, he, -⟩ := List.mem_map.mp hr
  obtain ⟨he, hpeer⟩ := List.mem_filter.mp he
  exact ⟨e, he, of_decide_eq_true hpeer⟩

omit [DecidableEq κ] in
/-- It is enough to look at the hosts that are in the files. -/
theorem single_iff (store : List (KnownHost κ)) (user : Option (List (KnownHost κ))) :
    (∀ e ∈ store ++ user.getD [], ∀ k ∈ decisive store user e.host e.port,
      ∀ k' ∈ decisive store user e.host e.port, k = k') ↔ Single store user := by
  constructor
  · intro h host port k hk k' hk'
    obtain ⟨e, he, rfl, rfl⟩ : ∃ e ∈ store ++ user.getD [], e.host = host ∧ e.port = port := by
      rcases mem_of_mem_decisive hk with hstore | huser
      · obtain ⟨e, he, hpeer⟩ := exists_of_mem_keysOf hstore
        exact ⟨e, List.mem_append_left _ he, hpeer⟩
      · cases user with
        | none => cases huser
        | some file =>
          obtain ⟨e, he, hpeer⟩ := exists_of_mem_keysOf huser
          exact ⟨e, List.mem_append_right _ he, hpeer⟩
    exact h e he k hk k' hk'
  · exact fun h e _ k hk k' hk' => h e.host e.port k hk k' hk'

instance decidableSingle (store : List (KnownHost κ)) (user : Option (List (KnownHost κ))) :
    Decidable (Single store user) :=
  decidable_of_iff _ (single_iff store user)

instance decidableClear (s : Known κ) : (e : Event κ) → Decidable (Clear s e)
  | .connect _ _ _ _ => isTrue trivial
  | .act i _ => inferInstanceAs (Decidable (∀ c ∈ s.connections[i]?,
      (c.checking = .storeUnknown → s.readUser c = .accepted →
        ∀ k ∈ keysOf s.store c.host c.port, k = c.key) ∧
      (c.checking = .unknown → c.strict = false →
        (∀ k ∈ keysOf s.store c.host c.port, k = c.key) ∧
          ∀ k ∈ userKeys s.user c.host c.port, k = c.key)))
  | .edit store user => decidableSingle store user

end

/-- The first connection to a host, and then one that presents another key. -/
def oneFirst : List (Event Nat) :=
  [.connect "h" 22 false 1, .act 0 (.read true), .act 0 (.read true), .act 0 (.learn (some 1) true),
    .connect "h" 22 false 2, .act 1 (.read true)]

theorem oneFirst_pinned :
    ∃ s, run Known.step { store := [], user := none, connections := [], accepted := [] } oneFirst =
        some s ∧
      s.connections.map (fun c => c.checking) = [.accepted, .refused (.storeChanged 1)] ∧
      s.Pinned ∧ ∀ e s', s.step e = some s' → StrictStep s s' := by
  have hend : (run Known.step { store := [], user := none, connections := [], accepted := [] }
      oneFirst).map (fun s => s.connections.map fun c => c.checking) =
        some [.accepted, .refused (.storeChanged 1)] := by
    decide +kernel
  obtain ⟨s, hs, hchecking⟩ := Option.map_eq_some_iff.mp hend
  exact ⟨s, hs, hchecking,
    pinned_of_clear_run [] none oneFirst s (by decide +kernel) (by decide +kernel) hs⟩

/-- Two first connections, each of which asks the files before the other one has written. -/
def twoFirst : List (Event Nat) :=
  [.connect "h" 22 false 1, .connect "h" 22 false 2, .act 0 (.read true), .act 1 (.read true),
    .act 0 (.read true), .act 1 (.read true), .act 0 (.learn (some 1) true),
    .act 1 (.learn (some 2) true)]

/-- Both connections are accepted, and both keys are from then on. -/
theorem twoFirst_unpinned :
    ∃ s, run Known.step { store := [], user := none, connections := [], accepted := [] } twoFirst =
        some s ∧
      keysOf s.store "h" 22 = [1, 2] ∧ ¬s.Pinned := by
  have hend : (run Known.step { store := [], user := none, connections := [], accepted := [] }
      twoFirst).map (fun s => (keysOf s.store "h" 22, s.accepted)) =
        some ([1, 2], [("h", 22, 2), ("h", 22, 1)]) := by
    decide +kernel
  obtain ⟨s, hs, hboth⟩ := Option.map_eq_some_iff.mp hend
  obtain ⟨hkeys, haccepted⟩ := Prod.mk.inj hboth
  refine ⟨s, hs, hkeys, fun h => ?_⟩
  have hsame := h "h" 22 2 1 (by rw [haccepted]; exact List.mem_cons_self)
    (by rw [haccepted]; exact List.mem_cons_of_mem _ List.mem_cons_self)
  exact absurd hsame (by decide)

end XferRust.Sftp
