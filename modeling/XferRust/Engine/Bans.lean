import XferRust.Lib.AssocMap
import XferRust.Lib.StepRun

/-! # The list of banned addresses

The manager keeps the list; each BitTorrent engine has a copy of it.  A call changes the list under
its lock, and then, without a lock, takes a snapshot of it, looks up the engines and writes to one
after the other.  Other calls change the list in between, and new engines come in.

Where a call writes to an engine only what the list still says of the address, the copies agree with
the list once no call is left: `agree_of_clear_run`.  One lifting during a ban is enough for them to
disagree, and a replacement of the list loses bans that it is not about: `bans_lost`.
-/
namespace XferRust.Engine.Bans
open StepRun

/-! ## The list and its copies -/

/-- `BtBanEntry`; times are in nanoseconds. -/
structure BtBanEntry where
  expires : Option Nat
  manual : Bool

/-- Whether a ban that ends then still holds. -/
def holds (now : Nat) (expires : Option Nat) : Bool := expires.all fun t => now < t

/-- `is_active` -/
def BtBanEntry.isActive (e : BtBanEntry) (now : Nat) : Bool := holds now e.expires

/-- A `TorrentEngine`, by its copy; it is running while it is registered.  A task has one driver, so
that its gid stands for one engine at a time. -/
structure TorrentEngine (α : Type) where
  running : Bool
  banned : AList fun _ : α => Option Nat

/-- What is written to an engine about an address: `ban_ip`, or `unban_ip` where there is no ban. -/
structure Write (α : Type) where
  engine : Nat
  ip : α
  ban : Option (Option Nat)

/-- How far a call has come. -/
inductive Call (α : Type) where
  /-- The list has been changed, and `apply_bans_to_running` is next. -/
  | changed
  /-- It has its snapshot. -/
  | snapshotted (bans : List (α × Option Nat))
  /-- It has writes left to the engine it has come to, and engines behind that. -/
  | writing (bans : List (α × Option Nat)) (writes : List (Write α)) (engines : List Nat)
  /-- `unban_peer_ip` has taken the address off the list. -/
  | removed (ip : α)
  /-- `drive_bt_download` has registered its engine, and `apply_bans_to_engine` is next. -/
  | registered (engine : Nat)

/-- The call has returned. -/
def Call.Returned : Call α → Prop
  | .writing _ writes engines => writes = [] ∧ engines = []
  | _ => False

instance decidableReturned (c : Call α) : Decidable c.Returned :=
  match c with
  | .writing _ writes engines => decidable_of_iff (writes.isEmpty ∧ engines.isEmpty) (by
      rw [List.isEmpty_iff, List.isEmpty_iff, Call.Returned])
  | .changed | .snapshotted _ | .removed _ | .registered _ => isFalse id

structure Manager (α : Type) where
  now : Nat
  btBans : AList fun _ : α => BtBanEntry
  /-- All engines there have been. -/
  engines : List (TorrentEngine α)
  calls : List (Call α)

/-- What a call does next; a map is gone through in any order. -/
inductive Act (α : Type) where
  /-- `bt_bans_snapshot` -/
  | snapshot (order : List (α × Option Nat))
  /-- The engines are looked up. -/
  | lookUp (order : List Nat)
  /-- `banned_ips` of the next engine, less what is in the snapshot. -/
  | stale (order : List α)
  | write

inductive Event (α : Type) where
  | banPeerIp (ip : α) (durationSecs : Int)
  | unbanPeerIp (ip : α)
  /-- `bt-ip-ban-list` is replaced. -/
  | replace (parsed : List α)
  | start
  | stop (i : Nat)
  | tick (nanos : Nat)
  /-- `is_banned`, as an engine asks for each connection. -/
  | isBanned (i : Nat) (ip : α)
  /-- `banned_peer_list` -/
  | bannedPeerList
  | act (i : Nat) (a : Act α)

section
variable {α : Type} [DecidableEq α]

/-! ## Steps -/

/-- The manager with another list. -/
def Manager.listed (s : Manager α) (btBans : AList fun _ : α => BtBanEntry) : Manager α :=
  { s with btBans }

/-- The manager without the bans that have ended. -/
def Manager.retainActive (s : Manager α) : Manager α :=
  s.listed (s.btBans.retain fun _ e => e.isActive s.now)

/-- `ban_peer_ip`, up to its lock's end. -/
def Manager.ban (s : Manager α) (ip : α) (durationSecs : Int) : Manager α :=
  let expires := if 0 < durationSecs then some (s.now + durationSecs.toNat * 1000000000) else none
  (s.listed (s.btBans.insert ip { expires, manual := true })).retainActive

/-- The list once the permanent bans have been replaced. -/
def replaced (btBans : AList fun _ : α => BtBanEntry) (parsed : List α) :
    AList fun _ : α => BtBanEntry :=
  parsed.foldl (fun m ip => m.insert ip { expires := none, manual := false })
    (btBans.retain fun ip e => !(e.expires.isNone && !decide (ip ∈ parsed)))

/-- `bt_bans_snapshot`, in the order of the list. -/
def Manager.snapshot (s : Manager α) : List (α × Option Nat) :=
  s.retainActive.btBans.pairs.map fun e => (e.1, e.2.expires)

/-- The engines that are registered. -/
def Manager.running (s : Manager α) : List Nat :=
  (List.range s.engines.length).filter fun i => (s.engines[i]?).any fun e => e.running

/-- `banned_ips` leaves the bans that hold. -/
def TorrentEngine.sweep (e : TorrentEngine α) (now : Nat) : TorrentEngine α :=
  { e with banned := e.banned.retain fun _ t => holds now t }

/-- `is_banned` takes the ban of the address away if it has ended. -/
def TorrentEngine.check (e : TorrentEngine α) (now : Nat) (ip : α) : TorrentEngine α :=
  match e.banned.lookup ip with
  | none => e
  | some t => if holds now t then e else { e with banned := e.banned.erase ip }

/-- `ban_ip` or `unban_ip`. -/
def TorrentEngine.write (e : TorrentEngine α) (ip : α) : Option (Option Nat) → TorrentEngine α
  | none => { e with banned := e.banned.erase ip }
  | some t => { e with banned := e.banned.insert ip t }

/-- The bans of an engine that are not in the snapshot. -/
def staleOf (e : TorrentEngine α) (bans : List (α × Option Nat)) : List α :=
  e.banned.keys.filter fun ip => ip ∉ bans.map Prod.fst

/-- The writes to an engine: what is stale is lifted, and all of the snapshot is banned. -/
def writesOf (engine : Nat) (stale : List α) (bans : List (α × Option Nat)) : List (Write α) :=
  stale.map (fun ip => ⟨engine, ip, none⟩) ++ bans.map fun b => ⟨engine, b.1, some b.2⟩

/-- The manager with one of its engines changed. -/
def Manager.modify (s : Manager α) (i : Nat) (f : TorrentEngine α → TorrentEngine α) :
    Manager α :=
  { s with engines := s.engines.modify i f }

/-- What a call does next, and how far it has come then.  If the snapshot is empty,
`apply_bans_to_running` lifts all that the engines have: that is what is stale then. -/
def Call.step (s : Manager α) : Call α → Act α → Option (Manager α × Call α)
  | .changed, .snapshot order =>
    if order.Perm s.snapshot then some (s.retainActive, .snapshotted order) else none
  | .snapshotted bans, .lookUp order =>
    if order.Perm s.running then some (s, .writing bans [] order) else none
  | .writing bans [] (i :: engines), .stale order =>
    (s.engines[i]?).bind fun e =>
      if order.Perm (staleOf (e.sweep s.now) bans) then
        some (s.modify i fun e => e.sweep s.now, .writing bans (writesOf i order bans) engines)
      else none
  | .writing bans (w :: writes) engines, .write =>
    some (s.modify w.engine fun e => e.write w.ip w.ban, .writing bans writes engines)
  | .removed ip, .lookUp order =>
    if order.Perm s.running then some (s, .writing [] (order.map fun i => ⟨i, ip, none⟩) [])
    else none
  | .registered i, .snapshot order =>
    if order.Perm s.snapshot then
      some (s.retainActive, .writing [] (order.map fun b => ⟨i, b.1, some b.2⟩) [])
    else none
  | _, _ => none

/-- The manager with a new engine, which bans nothing yet. -/
def Manager.registerEngine (s : Manager α) : Manager α :=
  { s with engines := s.engines ++ [{ running := true, banned := ∅ }] }

/-- The manager with one more call. -/
def Manager.called (s : Manager α) (c : Call α) : Manager α := { s with calls := s.calls ++ [c] }

def Manager.step (s : Manager α) : Event α → Option (Manager α)
  | .banPeerIp ip durationSecs => some ((s.ban ip durationSecs).called .changed)
  | .unbanPeerIp ip => some ((s.listed (s.btBans.erase ip)).called (.removed ip))
  | .replace parsed => some ((s.listed (replaced s.btBans parsed)).called .changed)
  | .start =>
    some (s.registerEngine.called (.registered s.engines.length))
  | .stop i => some (s.modify i fun e => { e with running := false })
  | .tick nanos => some { s with now := s.now + nanos }
  | .isBanned i ip => some (s.modify i fun e => e.check s.now ip)
  | .bannedPeerList => some s.retainActive
  | .act i a =>
    (s.calls[i]?).bind fun c =>
      (c.step s a).map fun r => { r.1 with calls := r.1.calls.set i r.2 }

/-! ## What is banned -/

/-- The ban of an address in the manager's list: its end, if it still holds. -/
def Manager.banOf (s : Manager α) (ip : α) : Option (Option Nat) :=
  ((s.btBans.lookup ip).map BtBanEntry.expires).filter (holds s.now)

/-- The ban of an address in an engine's copy. -/
def TorrentEngine.banOf (e : TorrentEngine α) (now : Nat) (ip : α) : Option (Option Nat) :=
  (e.banned.lookup ip).filter (holds now)

/-- **Agreement**: each running engine bans what the manager's list bans, and until then. -/
def Manager.Agree (s : Manager α) : Prop :=
  ∀ e ∈ s.engines, e.running = true → ∀ ip, e.banOf s.now ip = s.banOf ip

/-- All calls have returned. -/
def Manager.Settled (s : Manager α) : Prop := ∀ c ∈ s.calls, c.Returned

/-- A ban that a replacement of the list is not about: it ends, or the user has set it. -/
def Manager.Apart (s : Manager α) (e : BtBanEntry) : Prop :=
  e.isActive s.now = true ∧ (e.expires.isSome = true ∨ e.manual = true)

/-- The replacement leaves the bans it is not about. -/
def Manager.Keeps (s : Manager α) (parsed : List α) : Prop :=
  ∀ ip e, s.btBans.lookup ip = some e → s.Apart e → (replaced s.btBans parsed).lookup ip = some e

/-! ## Runs in which each write is of what the list says -/

/-- All bans that a replacement is not about end, and it does not name their addresses. -/
def Manager.Spares (s : Manager α) (parsed : List α) : Prop :=
  ∀ b ∈ s.btBans.pairs, s.Apart b.2 → b.2.expires.isSome = true ∧ b.1 ∉ parsed

/-- The write that a call has next. -/
def Call.nextWrite : Call α → Option (Write α)
  | .writing _ (w :: _) _ => some w
  | _ => none

/-- The list says of the address what the write does. -/
def Manager.Says (s : Manager α) (w : Write α) : Prop := s.banOf w.ip = w.ban.filter (holds s.now)

/-- What is written to an engine is what the list says at that time, and a replacement names no ban
that it is not about, nor is there one without an end. -/
def Clear (s : Manager α) : Event α → Prop
  | .act i .write => ∀ c ∈ s.calls[i]?, ∀ w ∈ c.nextWrite, s.Says w
  | .replace parsed => s.Spares parsed
  | _ => True

/-! ### Bans that still hold -/

theorem holds_of_le {now later : Nat} {t : Option Nat} (hle : now ≤ later)
    (h : holds later t = true) : holds now t = true := by
  cases t with
  | none => rfl
  | some t => exact decide_eq_true (lt_of_le_of_lt hle (of_decide_eq_true h))

/-- What holds later is what holds now and does later. -/
theorem filter_holds_of_le {now later : Nat} (hle : now ≤ later) (b : Option (Option Nat)) :
    b.filter (holds later) = (b.filter (holds now)).filter (holds later) := by
  rw [Option.filter_filter]
  congr 1
  funext t
  cases hlater : holds later t with
  | false => rw [Bool.and_false]
  | true => rw [holds_of_le hle hlater, Bool.true_and]

omit [DecidableEq α] in
theorem filter_map_expires (b : Option BtBanEntry) (now : Nat) :
    (b.filter fun e => e.isActive now).map BtBanEntry.expires =
      (b.map BtBanEntry.expires).filter (holds now) := by
  rw [Option.filter_map]
  rfl

@[simp] theorem Manager.banOf_retainActive (s : Manager α) (ip : α) :
    s.retainActive.banOf ip = s.banOf ip := by
  unfold Manager.banOf Manager.retainActive Manager.listed
  rw [AList.lookup_retain, filter_map_expires, Option.filter_filter]
  simp only [Bool.and_self]

variable {s : Manager α} {ip : α}

theorem mem_snapshot_of_banOf (h : s.banOf ip ≠ none) : ip ∈ s.snapshot.map Prod.fst := by
  have hlookup : s.retainActive.btBans.lookup ip ≠ none := by
    intro hnone
    rw [← s.banOf_retainActive, Manager.banOf, hnone] at h
    exact h rfl
  rw [Manager.snapshot, List.map_map]
  exact AList.mem_map_pairs_fst.mpr hlookup

variable (e : TorrentEngine α)

@[simp] theorem TorrentEngine.banOf_sweep (now : Nat) (ip : α) :
    (e.sweep now).banOf now ip = e.banOf now ip := by
  unfold TorrentEngine.banOf TorrentEngine.sweep
  rw [AList.lookup_retain, Option.filter_filter]
  simp only [Bool.and_self]

@[simp] theorem TorrentEngine.banOf_check (now : Nat) (ip' ip : α) :
    (e.check now ip').banOf now ip = e.banOf now ip := by
  unfold TorrentEngine.check
  split
  · rfl
  · rename_i t hlookup
    split
    · rfl
    · rename_i hover
      unfold TorrentEngine.banOf
      rw [AList.lookup_erase_eq]
      split
      · rename_i heq
        rw [heq, hlookup, Option.filter_some_neg ((Bool.not_eq_true _).mp hover),
          Option.filter_none]
      · rfl

@[simp] theorem TorrentEngine.running_write (ip : α) (ban : Option (Option Nat)) :
    (e.write ip ban).running = e.running := by
  cases ban with
  | none => rfl
  | some t => rfl

@[simp] theorem TorrentEngine.running_check (now : Nat) (ip : α) :
    (e.check now ip).running = e.running := by
  unfold TorrentEngine.check
  split
  · rfl
  · split <;> rfl

theorem TorrentEngine.banOf_write (now : Nat) (ip' ip : α) (ban : Option (Option Nat)) :
    (e.write ip' ban).banOf now ip =
      if ip = ip' then ban.filter (holds now) else e.banOf now ip := by
  cases ban with
  | none =>
    unfold TorrentEngine.write TorrentEngine.banOf
    rw [AList.lookup_erase_eq]
    split <;> rfl
  | some t =>
    unfold TorrentEngine.write TorrentEngine.banOf
    rw [AList.lookup_insert_eq]
    split <;> rfl

/-! ### What calls owe -/

/-- The call will yet write to the engine what the list says of the address. -/
def Call.Owes (s : Manager α) (i : Nat) (e : TorrentEngine α) (ip : α) : Call α → Prop
  | .changed => True
  | .snapshotted bans => s.banOf ip ≠ none → ip ∈ bans.map Prod.fst
  | .writing bans writes engines =>
    (∃ w ∈ writes, w.engine = i ∧ w.ip = ip) ∨
      i ∈ engines ∧ (s.banOf ip ≠ none → ip ∈ bans.map Prod.fst)
  | .removed ip' => ip = ip'
  | .registered j => j = i ∧ e.banOf s.now ip = none

/-- **Debts**: what a running engine bans is what the list does, or a call owes it. -/
def Manager.Covered (s : Manager α) : Prop :=
  ∀ i e, s.engines[i]? = some e → e.running = true → ∀ ip, e.banOf s.now ip ≠ s.banOf ip →
    ∃ c ∈ s.calls, c.Owes s i e ip

variable {c : Call α}

theorem Call.Returned.not_owes (h : c.Returned) (s : Manager α) (i : Nat) (e : TorrentEngine α)
    (ip : α) : ¬ c.Owes s i e ip := by
  cases c with
  | writing bans writes engines =>
    obtain ⟨rfl, rfl⟩ := h
    rintro (⟨w, hw, -⟩ | ⟨hi, -⟩)
    · cases hw
    · cases hi
  | changed | snapshotted bans | removed ip' | registered j => exact h.elim

/-- With no call left, no debt is. -/
theorem Manager.Covered.agree (h : s.Covered) (hsettled : s.Settled) : s.Agree := by
  intro e he hrun ip
  by_contra hne
  obtain ⟨i, hi⟩ := List.getElem?_of_mem he
  obtain ⟨c, hc, howes⟩ := h i e hi hrun ip hne
  exact (hsettled c hc).not_owes s i e ip howes

variable {i : Nat} {s' : Manager α} {e' : TorrentEngine α}

/-- A debt stays while the list does, and while an engine gets no ban. -/
theorem Call.Owes.mono {e : TorrentEngine α} (hlist : s'.banOf ip ≠ none → s.banOf ip ≠ none)
    (hcopy : e.banOf s.now ip = none → e'.banOf s'.now ip = none) (h : c.Owes s i e ip) :
    c.Owes s' i e' ip := by
  cases c with
  | changed => trivial
  | snapshotted bans => exact fun hban => h (hlist hban)
  | writing bans writes engines =>
    exact h.imp_right fun ⟨hi, hmem⟩ => ⟨hi, fun hban => hmem (hlist hban)⟩
  | removed ip' => exact h
  | registered j => exact ⟨h.1, hcopy h.2⟩

/-- A debt to an engine about an address, if there was one, stays. -/
structure Follows (s : Manager α) (e : TorrentEngine α) (s' : Manager α) (e' : TorrentEngine α)
    (ip : α) : Prop where
  before : e.banOf s.now ip ≠ s.banOf ip
  list : s'.banOf ip ≠ none → s.banOf ip ≠ none
  copy : e.banOf s.now ip = none → e'.banOf s'.now ip = none

/-- Nothing is new about what is banned. -/
theorem Follows.of_eq {e : TorrentEngine α} (hlist : s'.banOf ip = s.banOf ip)
    (hcopy : e'.banOf s'.now ip = e.banOf s.now ip) (hne : e'.banOf s'.now ip ≠ s'.banOf ip) :
    Follows s e s' e' ip where
  before := by rwa [hlist, hcopy] at hne
  list h := by rwa [hlist] at h
  copy h := by rwa [hcopy]

/-- What becomes of the debts in a step that leaves the calls. -/
theorem Manager.Covered.mono (h : s.Covered) (hcalls : ∀ c ∈ s.calls, c ∈ s'.calls)
    (hengines : ∀ (i : Nat) e', s'.engines[i]? = some e' → e'.running = true →
      ∃ e, s.engines[i]? = some e ∧ e.running = true ∧
        ∀ ip, e'.banOf s'.now ip ≠ s'.banOf ip → Follows s e s' e' ip) : s'.Covered := by
  intro i e' he' hrun' ip hne
  obtain ⟨e, he, hrun, hall⟩ := hengines i e' he' hrun'
  have hfollows := hall ip hne
  obtain ⟨c, hc, howes⟩ := h i e he hrun ip hfollows.before
  exact ⟨c, hcalls c hc, howes.mono hfollows.list hfollows.copy⟩

/-- A call changes the list, and owes what it has changed. -/
theorem Manager.Covered.listed (h : s.Covered) (btBans : AList fun _ : α => BtBanEntry)
    (c : Call α)
    (howes : ∀ i e ip, (s.listed btBans).banOf ip ≠ s.banOf ip →
      c.Owes ((s.listed btBans).called c) i e ip) : ((s.listed btBans).called c).Covered := by
  intro i e he hrun ip hne
  by_cases hsame : (s.listed btBans).banOf ip = s.banOf ip
  · change e.banOf s.now ip ≠ (s.listed btBans).banOf ip at hne
    rw [hsame] at hne
    obtain ⟨c', hc', howes'⟩ := h i e he hrun ip hne
    have hlist : ((s.listed btBans).called c).banOf ip = s.banOf ip := hsame
    refine ⟨c', List.mem_append_left _ hc', Call.Owes.mono (s := s) (fun hban => ?_) id howes'⟩
    rwa [hlist] at hban
  · exact ⟨c, List.mem_append_right _ (List.mem_singleton_self c), howes i e ip hsame⟩

/-- An engine that comes in bans nothing, and its own call owes it the list. -/
theorem Manager.Covered.register (h : s.Covered) :
    (s.registerEngine.called (.registered s.engines.length)).Covered := by
  intro i e he hrun ip hne
  rcases lt_or_ge i s.engines.length with hlt | hge
  · change (s.engines ++ [_])[i]? = some e at he
    rw [List.getElem?_append_left hlt] at he
    obtain ⟨c, hc, howes⟩ := h i e he hrun ip hne
    exact ⟨c, List.mem_append_left _ hc, howes.mono id id⟩
  · change (s.engines ++ [_])[i]? = some e at he
    rw [List.getElem?_append_right hge] at he
    rw [List.getElem?_singleton] at he
    split at he
    · rename_i hi
      refine ⟨.registered s.engines.length, List.mem_append_right _ (List.mem_singleton_self _),
        by omega, ?_⟩
      rw [← Option.some.inj he]
      rfl
    · cases he

variable {r : Manager α} {c' : Call α}

/-- What becomes of the debts when a call goes on: its own are paid, or still its own. -/
theorem Manager.Covered.acted (h : s.Covered) {k : Nat} (hc : s.calls[k]? = some c)
    (hcalls : r.calls = s.calls)
    (hengines : ∀ (i : Nat) e', r.engines[i]? = some e' → e'.running = true →
      ∃ e, s.engines[i]? = some e ∧ e.running = true ∧
        ∀ ip, e'.banOf r.now ip ≠ r.banOf ip →
          Follows s e r e' ip ∧ (c.Owes s i e ip → c'.Owes r i e' ip)) :
    ({ r with calls := r.calls.set k c' } : Manager α).Covered := by
  intro i e' he' hrun' ip hne
  obtain ⟨e, he, hrun, hall⟩ := hengines i e' he' hrun'
  obtain ⟨hfollows, hpaid⟩ := hall ip hne
  obtain ⟨c₀, hc₀, howes⟩ := h i e he hrun ip hfollows.before
  have hk : k < s.calls.length := (List.getElem?_eq_some_iff.mp hc).1
  obtain ⟨j, hj⟩ := List.getElem?_of_mem hc₀
  by_cases hjk : j = k
  · subst hjk
    obtain rfl : c₀ = c := Option.some.inj (hj.symm.trans hc)
    have hnew : (r.calls.set j c')[j]? = some c' := by
      rw [hcalls, List.getElem?_set_self hk]
    exact ⟨c', List.mem_of_getElem? hnew, (hpaid howes).mono id id⟩
  · have hold : (r.calls.set k c')[j]? = some c₀ := by
      rw [hcalls, List.getElem?_set_ne (Ne.symm hjk)]
      exact hj
    exact ⟨c₀, List.mem_of_getElem? hold,
      (howes.mono hfollows.list hfollows.copy).mono id id⟩

/-! ### Steps of a call -/

omit [DecidableEq α] in
theorem mem_running {e : TorrentEngine α} (he : s.engines[i]? = some e) (hrun : e.running = true) :
    i ∈ s.running := by
  refine List.mem_filter.mpr ⟨List.mem_range.mpr (List.getElem?_eq_some_iff.mp he).1, ?_⟩
  rw [he]
  exact hrun

omit [DecidableEq α] in
/-- An engine that has been changed, by the engine it was. -/
theorem exists_of_modify {j : Nat} {f : TorrentEngine α → TorrentEngine α}
    (he' : (s.modify j f).engines[i]? = some e') :
    ∃ e, s.engines[i]? = some e ∧ e' = if j = i then f e else e := by
  change (s.engines.modify j f)[i]? = some e' at he'
  rw [List.getElem?_modify] at he'
  obtain ⟨e, he, heq⟩ := Option.map_eq_some_iff.mp he'
  exact ⟨e, he, heq.symm⟩

/-- A snapshot has all that the list bans. -/
theorem mem_order_of_banOf {order : List (α × Option Nat)} (hperm : order.Perm s.snapshot)
    (h : s.banOf ip ≠ none) : ip ∈ order.map Prod.fst :=
  (hperm.map Prod.fst).mem_iff.mpr (mem_snapshot_of_banOf h)

/-- The writes to an engine are about all that it bans and all that the snapshot does. -/
theorem exists_writesOf {e : TorrentEngine α} {order : List α} {bans : List (α × Option Nat)}
    (hperm : order.Perm (staleOf (e.sweep s.now) bans))
    (hlist : s.banOf ip ≠ none → ip ∈ bans.map Prod.fst) (hne : e.banOf s.now ip ≠ s.banOf ip) :
    ∃ w ∈ writesOf i order bans, w.engine = i ∧ w.ip = ip := by
  by_cases hmem : ip ∈ bans.map Prod.fst
  · obtain ⟨b, hb, rfl⟩ := List.mem_map.mp hmem
    exact ⟨_, List.mem_append_right _ (List.mem_map.mpr ⟨b, hb, rfl⟩), rfl, rfl⟩
  · have hnone : s.banOf ip = none := by
      by_contra hban
      exact hmem (hlist hban)
    -- the engine bans what the list does not: this is stale
    have hbanned : (e.sweep s.now).banned.lookup ip ≠ none := by
      intro hlookup
      rw [hnone, ← e.banOf_sweep, TorrentEngine.banOf, hlookup] at hne
      exact hne rfl
    have hstale : ip ∈ order := by
      refine hperm.mem_iff.mpr (List.mem_filter.mpr ⟨?_, decide_eq_true hmem⟩)
      by_contra hkey
      exact hbanned (AList.lookup_eq_none.mpr hkey)
    exact ⟨_, List.mem_append_left _ (List.mem_map.mpr ⟨ip, hstale, rfl⟩), rfl, rfl⟩

theorem Call.step_calls {a : Act α} (hstep : c.step s a = some (r, c')) : r.calls = s.calls := by
  unfold Call.step at hstep
  split at hstep
  case h_3 =>
    obtain ⟨e, -, hstep⟩ := Option.bind_eq_some_iff.mp hstep
    split at hstep
    · cases hstep
      rfl
    · cases hstep
  case h_4 =>
    cases hstep
    rfl
  case h_7 => cases hstep
  all_goals
    split at hstep
    · cases hstep
      rfl
    · cases hstep

/-- What a step of a call does to an engine and an address. -/
theorem Call.step_follows {a : Act α} (hstep : c.step s a = some (r, c'))
    (hclear : a = .write → ∀ w ∈ c.nextWrite, s.Says w) (he' : r.engines[i]? = some e')
    (hrun' : e'.running = true) :
    ∃ e, s.engines[i]? = some e ∧ e.running = true ∧
      ∀ ip, e'.banOf r.now ip ≠ r.banOf ip →
        Follows s e r e' ip ∧ (c.Owes s i e ip → c'.Owes r i e' ip) := by
  unfold Call.step at hstep
  split at hstep
  · -- a snapshot has what the list bans
    rename_i order
    split at hstep
    · rename_i hperm
      cases hstep
      refine ⟨e', he', hrun', fun ip hne =>
        ⟨.of_eq (s.banOf_retainActive ip) rfl hne, fun _ hban => ?_⟩⟩
      rw [s.banOf_retainActive] at hban
      exact mem_order_of_banOf hperm hban
    · cases hstep
  · -- the engines that are found are those that run
    rename_i bans order
    split at hstep
    · rename_i hperm
      cases hstep
      exact ⟨e', he', hrun', fun ip hne => ⟨.of_eq rfl rfl hne, fun howes =>
        .inr ⟨hperm.mem_iff.mpr (mem_running he' hrun'), howes⟩⟩⟩
    · cases hstep
  · -- the next engine's writes
    rename_i bans j engines order
    obtain ⟨ej, hej, hstep⟩ := Option.bind_eq_some_iff.mp hstep
    split at hstep
    · rename_i hperm
      cases hstep
      obtain ⟨e, he, rfl⟩ := exists_of_modify he'
      have hcopy : ∀ ip, (if j = i then e.sweep s.now else e).banOf s.now ip =
          e.banOf s.now ip := by
        intro ip
        split
        · exact e.banOf_sweep s.now ip
        · rfl
      refine ⟨e, he, ?_, fun ip hne => ⟨.of_eq rfl (hcopy ip) hne, fun howes => ?_⟩⟩
      · split at hrun'
        · exact hrun'
        · exact hrun'
      · change (if j = i then e.sweep s.now else e).banOf s.now ip ≠ s.banOf ip at hne
        rw [hcopy] at hne
        rcases howes with ⟨w, hw, -⟩ | ⟨hi, hlist⟩
        · cases hw
        · rcases List.mem_cons.mp hi with rfl | hi
          · obtain rfl : ej = e := Option.some.inj (hej.symm.trans he)
            exact .inl (exists_writesOf hperm hlist hne)
          · exact .inr ⟨hi, hlist⟩
    · cases hstep
  · -- a write is of what the list says
    rename_i bans w writes engines
    cases hstep
    obtain ⟨e, he, rfl⟩ := exists_of_modify he'
    have hsays : s.banOf w.ip = w.ban.filter (holds s.now) := hclear rfl w rfl
    refine ⟨e, he, ?_, fun ip hne => ?_⟩
    · split at hrun'
      · rwa [e.running_write] at hrun'
      · exact hrun'
    · change (if w.engine = i then e.write w.ip w.ban else e).banOf s.now ip ≠ s.banOf ip at hne
      have hother : ¬(w.engine = i ∧ w.ip = ip) := by
        rintro ⟨rfl, rfl⟩
        rw [if_pos rfl, e.banOf_write, if_pos rfl, hsays] at hne
        exact hne rfl
      have hcopy : (if w.engine = i then e.write w.ip w.ban else e).banOf s.now ip =
          e.banOf s.now ip := by
        split
        · rename_i hi
          rw [e.banOf_write, if_neg fun hip => hother ⟨hi, hip.symm⟩]
        · rfl
      refine ⟨.of_eq rfl hcopy hne, fun howes => ?_⟩
      rcases howes with ⟨w', hw', hthis⟩ | howes
      · rcases List.mem_cons.mp hw' with rfl | hw'
        · exact absurd hthis hother
        · exact .inl ⟨w', hw', hthis⟩
      · exact .inr howes
  · -- lifting an address is for all engines that run
    rename_i ip' order
    split at hstep
    · rename_i hperm
      cases hstep
      refine ⟨e', he', hrun', fun ip hne => ⟨.of_eq rfl rfl hne, fun howes => .inl ?_⟩⟩
      have hi : i ∈ order := hperm.mem_iff.mpr (mem_running he' hrun')
      exact ⟨_, List.mem_map.mpr ⟨i, hi, rfl⟩, rfl, Eq.symm howes⟩
    · cases hstep
  · -- a new engine bans nothing, so that what it lacks is in the snapshot
    rename_i j order
    split at hstep
    · rename_i hperm
      cases hstep
      refine ⟨e', he', hrun', fun ip hne =>
        ⟨.of_eq (s.banOf_retainActive ip) rfl hne, fun howes => .inl ?_⟩⟩
      obtain ⟨rfl, hnone⟩ := howes
      rw [s.banOf_retainActive] at hne
      have hban : s.banOf ip ≠ none := fun h => hne (hnone.trans h.symm)
      obtain ⟨b, hb, rfl⟩ := List.mem_map.mp (mem_order_of_banOf hperm hban)
      exact ⟨_, List.mem_map.mpr ⟨b, hb, rfl⟩, rfl, rfl⟩
    · cases hstep
  · cases hstep

/-! ### Runs -/

/-- Time ends bans of the list and of the engines alike. -/
theorem Follows.tick {e : TorrentEngine α} {nanos : Nat}
    (hne : e.banOf (s.now + nanos) ip ≠ Manager.banOf { s with now := s.now + nanos } ip) :
    Follows s e { s with now := s.now + nanos } e ip := by
  have hlist : Manager.banOf { s with now := s.now + nanos } ip =
      (s.banOf ip).filter (holds (s.now + nanos)) :=
    filter_holds_of_le (Nat.le_add_right s.now nanos) _
  have hcopy : e.banOf (s.now + nanos) ip =
      (e.banOf s.now ip).filter (holds (s.now + nanos)) :=
    filter_holds_of_le (Nat.le_add_right s.now nanos) _
  refine ⟨fun heq => ?_, fun h hnone => ?_, fun hnone => ?_⟩
  · rw [hlist, hcopy, heq] at hne
    exact hne rfl
  · rw [hlist, hnone] at h
    exact h rfl
  · show e.banOf (s.now + nanos) ip = none
    rw [hcopy, hnone, Option.filter_none]

/-- **Step.**  No debt is lost while each write is of what the list says. -/
theorem Manager.Covered.step {event : Event α} (h : s.Covered) (hclear : Clear s event)
    (hstep : s.step event = some s') : s'.Covered := by
  cases event with
  | banPeerIp ip durationSecs =>
    cases hstep
    exact h.listed _ .changed fun _ _ _ _ => trivial
  | unbanPeerIp ip =>
    cases hstep
    refine h.listed _ (.removed ip) fun i e ip' hne => ?_
    by_contra hother
    have hne' : ¬ ip' = ip := hother
    rw [Manager.banOf, Manager.listed, AList.lookup_erase_eq, if_neg hne'] at hne
    exact hne rfl
  | replace parsed =>
    cases hstep
    exact h.listed _ .changed fun _ _ _ _ => trivial
  | start =>
    cases hstep
    exact h.register
  | stop j =>
    cases hstep
    refine h.mono (fun c hc => hc) fun i e' he' hrun' => ?_
    obtain ⟨e, he, rfl⟩ := exists_of_modify he'
    split at hrun'
    · cases hrun'
    · rename_i hji
      refine ⟨e, he, hrun', fun ip hne => .of_eq rfl ?_ hne⟩
      rw [if_neg hji]
      rfl
  | tick nanos =>
    cases hstep
    exact h.mono (fun c hc => hc) fun i e' he' hrun' => ⟨e', he', hrun', fun ip hne => .tick hne⟩
  | isBanned j ip =>
    cases hstep
    refine h.mono (fun c hc => hc) fun i e' he' hrun' => ?_
    obtain ⟨e, he, rfl⟩ := exists_of_modify he'
    refine ⟨e, he, ?_, fun ip' hne => .of_eq rfl ?_ hne⟩
    · split at hrun'
      · rwa [e.running_check] at hrun'
      · exact hrun'
    · split
      · exact e.banOf_check s.now ip ip'
      · rfl
  | bannedPeerList =>
    cases hstep
    exact h.mono (fun c hc => hc) fun i e' he' hrun' =>
      ⟨e', he', hrun', fun ip hne => .of_eq (s.banOf_retainActive ip) rfl hne⟩
  | act k a =>
    obtain ⟨c, hc, hmap⟩ := Option.bind_eq_some_iff.mp hstep
    obtain ⟨⟨r, c'⟩, hact, rfl⟩ := Option.map_eq_some_iff.mp hmap
    have hnext : a = .write → ∀ w ∈ c.nextWrite, s.Says w := by
      rintro rfl
      exact hclear c hc
    exact h.acted hc (Call.step_calls hact) fun i e' he' hrun' =>
      Call.step_follows hact hnext he' hrun'

/-! ### The replacement -/

theorem lookup_foldl_insert (parsed : List α) (m : AList fun _ : α => BtBanEntry) (v : BtBanEntry)
    (ip : α) :
    (parsed.foldl (fun m ip => m.insert ip v) m).lookup ip =
      if ip ∈ parsed then some v else m.lookup ip := by
  induction parsed generalizing m with
  | nil => rfl
  | cons ip' rest ih =>
    rw [List.foldl_cons, ih, AList.lookup_insert_eq]
    by_cases hrest : ip ∈ rest
    · rw [if_pos hrest, if_pos (List.mem_cons_of_mem ip' hrest)]
    · rw [if_neg hrest]
      by_cases heq : ip = ip'
      · rw [if_pos heq, if_pos (heq ▸ List.mem_cons_self)]
      · rw [if_neg heq, if_neg fun h => (List.mem_cons.mp h).elim heq hrest]

/-- What the replaced list has of an address. -/
theorem lookup_replaced (m : AList fun _ : α => BtBanEntry) (parsed : List α) (ip : α) :
    (replaced m parsed).lookup ip =
      if ip ∈ parsed then some { expires := none, manual := false }
      else (m.lookup ip).filter fun e => e.expires.isSome := by
  rw [replaced, lookup_foldl_insert]
  split
  · rfl
  · rename_i hnot
    rw [AList.lookup_retain]
    congr 1
    funext e
    rw [decide_eq_false hnot, Bool.not_false, Bool.and_true, Option.not_isNone]

/-- **The replacement**, exactly: it leaves the bans it is not about if and only if they all end,
and it does not name their addresses. -/
theorem keeps_iff (s : Manager α) (parsed : List α) : s.Keeps parsed ↔ s.Spares parsed := by
  constructor
  · rintro h ⟨ip, e⟩ hmem hapart
    have hkept := h ip e (AList.mem_pairs.mp hmem) hapart
    rw [lookup_replaced] at hkept
    split at hkept
    · -- what is named becomes a permanent ban of the list
      cases hkept
      rcases hapart.2 with hends | hmanual
      · cases hends
      · cases hmanual
    · rename_i hnot
      exact ⟨(Option.mem_filter_iff.mp hkept).2, hnot⟩
  · intro h ip e hlookup hapart
    obtain ⟨hends, hnot⟩ := h (ip, e) (AList.mem_pairs.mpr hlookup) hapart
    rw [lookup_replaced, if_neg hnot, hlookup]
    exact Option.filter_some_pos hends

/-! ### The result -/

/-- A write leaves the engine in agreement with the list about the address, if it is of what the
list says, and only then. -/
theorem write_agrees_iff (s : Manager α) (e : TorrentEngine α) (w : Write α) :
    (e.write w.ip w.ban).banOf s.now w.ip = s.banOf w.ip ↔ s.Says w := by
  rw [e.banOf_write, if_pos rfl]
  exact eq_comm

/-- The manager before the first call; its list may have been restored. -/
structure Manager.Fresh (s : Manager α) : Prop where
  engines : s.engines = []
  calls : s.calls = []

theorem Manager.Fresh.covered (h : s.Fresh) : s.Covered := by
  intro i e he
  rw [h.engines] at he
  cases he

/-- **Ban lists agree** in a run in which each write to an engine is of what the list says at that
time: whenever no call is left, each running engine bans what the list bans, and until then.  Any
other write leaves its engine in disagreement.  And a replacement leaves the bans it is not about if
and only if these end and it does not name them. -/
theorem agree_of_clear_run {s : Manager α} (hs : s.Fresh) {es : List (Event α)}
    (hclear : Along Manager.step Clear s es) :
    Everywhere Manager.step (fun t => t.Settled → t.Agree) s es ∧
      Along Manager.step (fun t e => ∀ parsed, e = .replace parsed → t.Keeps parsed) s es ∧
        (∀ (t : Manager α) (e : TorrentEngine α) (w : Write α),
          (e.write w.ip w.ban).banOf t.now w.ip = t.banOf w.ip ↔ t.Says w) ∧
            ∀ (t : Manager α) (parsed : List α), t.Keeps parsed ↔ t.Spares parsed := by
  refine ⟨?_, ?_, write_agrees_iff, keeps_iff⟩
  · exact everywhere_of_along (fun t ht hsettled => Manager.Covered.agree ht hsettled)
      (fun t e t' ht hP hstep => ht.step hP hstep) hs.covered hclear
  · refine hclear.mono fun t e hP parsed heq => ?_
    subst heq
    exact (keeps_iff t parsed).mpr hP

instance decidableSays (s : Manager α) (w : Write α) : Decidable (s.Says w) :=
  inferInstanceAs (Decidable (s.banOf w.ip = w.ban.filter (holds s.now)))

instance decidableApart (s : Manager α) (e : BtBanEntry) : Decidable (s.Apart e) :=
  inferInstanceAs (Decidable (_ ∧ _))

instance decidableSpares (s : Manager α) (parsed : List α) : Decidable (s.Spares parsed) :=
  inferInstanceAs (Decidable (∀ b ∈ s.btBans.pairs, s.Apart b.2 → _))

instance decidableClear (s : Manager α) : (event : Event α) → Decidable (Clear s event)
  | .act i .write => inferInstanceAs (Decidable (∀ c ∈ s.calls[i]?, ∀ w ∈ c.nextWrite, s.Says w))
  | .replace parsed => inferInstanceAs (Decidable (s.Spares parsed))
  | .act _ (.snapshot _) | .act _ (.lookUp _) | .act _ (.stale _) => isTrue trivial
  | .banPeerIp _ _ | .unbanPeerIp _ | .start | .stop _ | .tick _ | .isBanned _ _ |
    .bannedPeerList => isTrue trivial

end

/-- A manager with a ban of one address, which the user has set without an end. -/
def oneBan : Manager String where
  now := 0
  btBans := AList.singleton "10.0.0.7" { expires := none, manual := true }
  engines := []
  calls := []

/-- An engine starts, and another address is banned for a second and lifted. -/
def banAndLift : List (Event String) :=
  [.start, .act 0 (.snapshot [("10.0.0.7", none)]), .act 0 .write, .banPeerIp "10.0.0.8" 1,
    .act 1 (.snapshot [("10.0.0.7", none), ("10.0.0.8", some 1000000000)]), .act 1 (.lookUp [0]),
    .act 1 (.stale []), .act 1 .write, .tick 500000000, .act 1 .write, .unbanPeerIp "10.0.0.8",
    .act 2 (.lookUp [0]), .act 2 .write]

/-- How a run ends: whether all calls have returned and the engine runs, and what the engine and the
list ban of an address. -/
structure Outcome where
  settled : Bool
  running : Option Bool
  copy : Option (Option (Option Nat))
  list : Option (Option Nat)
  deriving DecidableEq

def outcome (s : Manager String) (ip : String) : Outcome where
  settled := s.calls.all fun c => decide c.Returned
  running := (s.engines[0]?).map TorrentEngine.running
  copy := (s.engines[0]?).map fun e => e.banOf s.now ip
  list := s.banOf ip

theorem settled_of_outcome {s : Manager String} {ip : String} (h : (outcome s ip).settled = true) :
    s.Settled :=
  fun c hc => of_decide_eq_true (List.all_eq_true.mp h c hc)

theorem banAndLift_agrees :
    ∃ s, run Manager.step oneBan banAndLift = some s ∧ s.Settled ∧ s.Agree ∧
      outcome s "10.0.0.7" = ⟨true, some true, some (some none), some none⟩ := by
  have hclear : Along Manager.step Clear oneBan banAndLift := by decide +kernel
  have hend : (run Manager.step oneBan banAndLift).map (fun s => outcome s "10.0.0.7") =
      some ⟨true, some true, some (some none), some none⟩ := by decide +kernel
  obtain ⟨s, hrun, hout⟩ := Option.map_eq_some_iff.mp hend
  have hsettled : s.Settled := settled_of_outcome (congrArg Outcome.settled hout)
  have hagree := (agree_of_clear_run ⟨rfl, rfl⟩ hclear).1 banAndLift.length s
  rw [List.take_length] at hagree
  exact ⟨s, hrun, hsettled, hagree hrun hsettled, hout⟩

/-- An address is lifted while it is being banned: between the snapshot and the write. -/
def liftDuringBan : List (Event String) :=
  [.start, .act 0 (.snapshot [("10.0.0.7", none)]), .act 0 .write, .banPeerIp "10.0.0.8" 0,
    .act 1 (.snapshot [("10.0.0.7", none), ("10.0.0.8", none)]), .unbanPeerIp "10.0.0.8",
    .act 2 (.lookUp [0]), .act 2 .write, .act 1 (.lookUp [0]), .act 1 (.stale []), .act 1 .write,
    .act 1 .write]

/-- **What is wrong.**  All calls have returned, and the engine bans an address that the list does
not; and a replacement takes a ban that the user has set away, or makes one that ends permanent. -/
theorem bans_lost :
    (∃ s, run Manager.step oneBan liftDuringBan = some s ∧ s.Settled ∧ ¬ s.Agree) ∧
      ¬ oneBan.Keeps [] ∧ ¬ (oneBan.ban "10.0.0.8" 60).Keeps ["10.0.0.7", "10.0.0.8"] := by
  have hend : (run Manager.step oneBan liftDuringBan).map (fun s => outcome s "10.0.0.8") =
      some ⟨true, some true, some (some none), none⟩ := by decide +kernel
  refine ⟨?_, ?_, ?_⟩
  · obtain ⟨s, hrun, hout⟩ := Option.map_eq_some_iff.mp hend
    refine ⟨s, hrun, settled_of_outcome (congrArg Outcome.settled hout), fun hagree => ?_⟩
    have hlist : s.banOf "10.0.0.8" = none := congrArg Outcome.list hout
    have hcopy : (s.engines[0]?).map (fun e => e.banOf s.now "10.0.0.8") = some (some none) :=
      congrArg Outcome.copy hout
    have hrun : (s.engines[0]?).map TorrentEngine.running = some true :=
      congrArg Outcome.running hout
    obtain ⟨e, he, hbanned⟩ := Option.map_eq_some_iff.mp hcopy
    rw [he] at hrun
    have hrunning : e.running = true := Option.some.inj hrun
    have heq := hagree e (List.mem_of_getElem? he) hrunning "10.0.0.8"
    rw [hbanned, hlist] at heq
    cases heq
  · rw [keeps_iff]
    decide +kernel
  · rw [keeps_iff]
    decide +kernel

end XferRust.Engine.Bans
