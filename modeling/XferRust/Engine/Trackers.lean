import XferRust.Lib.AssocMap
import XferRust.Lib.StepRun

/-! # Tracker subscriptions

The manager keeps a list of trackers for all torrents.  The user adds to it, removes from it and
replaces it, and subscriptions bring in the trackers of remote lists.  Which source has brought a
tracker in is kept in a second table, and what each subscription had last in a third.  A refresh
first downloads, then brings the list and the claims up to date under one lock, and then writes what
the subscription had under another.

Where the steps of a run stay clear of each other, all three tables agree: `inSync_of_clear_run`.
Four ways in which they come apart are in `outOfSync`.
-/
namespace XferRust.Engine.Trackers
open StepRun

/-! ## The tables -/

/-- An element of `tracker_sources`; the ids of subscriptions are random, and none is `manual`. -/
inductive Source where
  | manual
  | sub (id : String)
  deriving DecidableEq

/-- `TrackerSubscription` -/
structure Subscription where
  id : String
  url : String
  enabled : Bool
  lastTrackers : List String

/-- How far `refresh_one_subscription` has come. -/
inductive Phase where
  | fetching
  /-- The tables are up to date with the list, after so many changes; what the subscription had last
  is not written yet. -/
  | synced (list : List String) (changes : Nat)
  | ended
  deriving DecidableEq

structure Refresh where
  id : String
  phase : Phase

structure Manager where
  globalTrackers : List String
  trackerSources : AList fun _ : String => List Source
  trackerSubscriptions : List Subscription
  refreshes : List Refresh
  /-- The subscriptions that have just been disabled: `toggle_subscription` is between its locks. -/
  unclaims : List String
  /-- What the user has added or listed, and not removed since.  The source does not have this, nor
  the fields below. -/
  byHand : List String
  /-- What was restored without a source, and is there since. -/
  bare : List String
  /-- How many changes there have been that are not refreshes. -/
  changes : Nat
  /-- The subscriptions that have been refreshed since the last of them. -/
  refreshed : List String

inductive Act where
  /-- The download ends: its lines without blanks at the ends, if there are any. -/
  | fetched (lines : Option (List String))
  | finish

/-- Addresses come without blanks at the ends. -/
inductive Event where
  | addGlobalTracker (url : String)
  | removeGlobalTracker (url : String)
  /-- `bt-trackers` is replaced. -/
  | replace (list : List String)
  | addSubscription (id url : String) (enabled : Bool)
  | removeSubscription (id : String)
  | toggleSubscription (id : String)
  /-- The second half of `toggle_subscription`. -/
  | unclaim (id : String)
  | refresh (id : String)
  | act (i : Nat) (a : Act)

/-! ## Claims -/

/-- The sources of a tracker. -/
def Manager.sources (s : Manager) (url : String) : List Source :=
  (s.trackerSources.lookup url).getD []

/-- A tracker gets a source. -/
def Manager.mark (s : Manager) (source : Source) (url : String) : Manager :=
  { s with trackerSources := s.trackerSources.insert url ((s.sources url).insert source) }

/-- Another subscription that is enabled had the tracker last. -/
def Manager.otherProvides (s : Manager) (subId url : String) : Bool :=
  s.trackerSubscriptions.any fun sub =>
    sub.id ≠ subId && sub.enabled && sub.lastTrackers.contains url

/-- The tracker has lost a source. -/
def Manager.unmark (s : Manager) (source : Source) (url : String) : Manager :=
  match s.trackerSources.lookup url with
  | none => s
  | some srcs =>
    { s with trackerSources := s.trackerSources.insert url (srcs.filter fun x => x ≠ source) }

/-- The tracker is removed. -/
def Manager.dropTracker (s : Manager) (url : String) : Manager :=
  { s with
    trackerSources := s.trackerSources.erase url
    globalTrackers := s.globalTrackers.filter fun t => t ≠ url
    bare := s.bare.filter fun t => t ≠ url }

/-- `release_tracker_claim` -/
def releaseTrackerClaim (s : Manager) (subId url : String) : Manager :=
  let s := s.unmark (.sub subId) url
  if s.sources url ≠ [] then s
  else if s.otherProvides subId url then s
  else s.dropTracker url

/-- The trackers that the subscription claims. -/
def Manager.claimed (s : Manager) (subId : String) : List String :=
  (s.trackerSources.pairs.filter fun e => .sub subId ∈ e.2).map Prod.fst

/-- `unclaim_trackers_locked` -/
def unclaimTrackers (s : Manager) (subId : String) : Manager :=
  (s.claimed subId).foldl (fun s url => releaseTrackerClaim s subId url) s

/-- A tracker of the remote list comes in, or is claimed. -/
def Manager.claim (s : Manager) (subId url : String) : Manager :=
  if url ∈ s.globalTrackers then s.mark (.sub subId) url
  else { s.mark (.sub subId) url with globalTrackers := s.globalTrackers ++ [url] }

/-- `sync_trackers_locked` -/
def syncTrackers (s : Manager) (subId : String) (remote : List String) : Manager :=
  remote.foldl (fun s url => s.claim subId url)
    (((s.claimed subId).filter fun url => url ∉ remote).foldl
      (fun s url => releaseTrackerClaim s subId url) s)

/-! ## Steps -/

/-- What `fetch_subscription_trackers` takes for a tracker. -/
def isTracker (line : String) : Bool :=
  ["udp://", "http://", "https://", "wss://"].any fun p => p.toList.isPrefixOf line.toList

/-- `fetch_subscription_trackers`, from the lines of the text. -/
def parseTrackers (lines : List String) : List String :=
  lines.foldl (fun trackers l =>
    if l = "" || ['#'].isPrefixOf l.toList then trackers
    else if isTracker l && !trackers.contains l then trackers ++ [l]
    else trackers) []

/-- The manager after a change that is not a refresh. -/
def Manager.changed (s : Manager) : Manager := { s with changes := s.changes + 1, refreshed := [] }

def Manager.addGlobalTracker (s : Manager) (url : String) : Manager :=
  if url = "" ∨ url ∈ s.globalTrackers then s
  else
    let s := s.mark .manual url
    Manager.changed
      { s with globalTrackers := s.globalTrackers ++ [url], byHand := url :: s.byHand }

def Manager.removeGlobalTracker (s : Manager) (url : String) : Manager :=
  let t := { s.dropTracker url with byHand := s.byHand.filter fun t => t ≠ url }
  if url ∈ s.globalTrackers then t.changed else t

/-- `change_global_option`, as it replaces `bt-trackers`. -/
def Manager.replace (s : Manager) (list : List String) : Manager :=
  let removed := s.globalTrackers.filter fun t => t ∉ list
  let added := list.filter fun t => t ∉ s.globalTrackers
  let s := added.foldl (fun s url => s.mark .manual url) { s with globalTrackers := list }
  Manager.changed
    { s with
      trackerSources := removed.foldl (fun m url => m.erase url) s.trackerSources
      byHand := list
      bare := s.bare.filter fun t => t ∈ list }

def Manager.addSubscription (s : Manager) (id url : String) (enabled : Bool) : Manager :=
  if url = "" ∨ ¬(["http://", "https://"].any fun p => p.toList.isPrefixOf url.toList) ∨
      s.trackerSubscriptions.any (fun sub => sub.url = url) then s
  else
    Manager.changed { s with
      trackerSubscriptions := s.trackerSubscriptions ++ [{ id, url, enabled, lastTrackers := [] }] }

def Manager.removeSubscription (s : Manager) (id : String) : Manager :=
  if s.trackerSubscriptions.any fun sub => sub.id = id then
    (unclaimTrackers
      { s with trackerSubscriptions := s.trackerSubscriptions.filter fun sub => sub.id ≠ id }
      id).changed
  else s

/-- The first subscription of that id is changed. -/
def updateFirst (id : String) (f : Subscription → Subscription) :
    List Subscription → List Subscription
  | [] => []
  | sub :: rest => if sub.id = id then f sub :: rest else sub :: updateFirst id f rest

/-- The first half of `toggle_subscription`. -/
def Manager.toggleSubscription (s : Manager) (id : String) : Manager :=
  match s.trackerSubscriptions.find? fun sub => sub.id = id with
  | none => s
  | some sub =>
    Manager.changed { s with
      trackerSubscriptions :=
        updateFirst id (fun sub => { sub with enabled := !sub.enabled }) s.trackerSubscriptions
      unclaims := if sub.enabled then s.unclaims ++ [id] else s.unclaims }

/-- The id is used for nothing yet. -/
def Manager.FreshId (s : Manager) (id : String) : Prop :=
  (∀ sub ∈ s.trackerSubscriptions, sub.id ≠ id) ∧ (∀ r ∈ s.refreshes, r.id ≠ id) ∧
    id ∉ s.unclaims ∧ ∀ e ∈ s.trackerSources.pairs, .sub id ∉ e.2

instance decidableFreshId (s : Manager) (id : String) : Decidable (s.FreshId id) :=
  inferInstanceAs (Decidable (_ ∧ _))

/-- What a refresh does next. -/
def Refresh.step (r : Refresh) (s : Manager) : Act → Option (Manager × Phase)
  | .fetched lines =>
    match r.phase with
    | .fetching =>
      let list := lines.elim [] parseTrackers
      -- an empty list and an error leave the tables as they are
      if list = [] then some (s, .ended)
      else some (syncTrackers s r.id list, .synced list s.changes)
    | _ => none
  | .finish =>
    match r.phase with
    | .synced list changes =>
      some ({ s with
        trackerSubscriptions :=
          updateFirst r.id (fun sub => { sub with lastTrackers := list }) s.trackerSubscriptions
        refreshed := if changes = s.changes then r.id :: s.refreshed else s.refreshed }, .ended)
    | _ => none

def Manager.step (s : Manager) : Event → Option Manager
  | .addGlobalTracker url => some (s.addGlobalTracker url)
  | .removeGlobalTracker url => some (s.removeGlobalTracker url)
  | .replace list => some (s.replace list)
  | .addSubscription id url enabled =>
    if s.FreshId id then some (s.addSubscription id url enabled) else none
  | .removeSubscription id => some (s.removeSubscription id)
  | .toggleSubscription id => some (s.toggleSubscription id)
  | .unclaim id =>
    if id ∈ s.unclaims then
      some (unclaimTrackers { s with unclaims := s.unclaims.erase id } id).changed
    else none
  | .refresh id =>
    if s.trackerSubscriptions.any fun sub => sub.id = id then
      some { s with refreshes := s.refreshes ++ [{ id, phase := .fetching }] }
    else none
  | .act i a =>
    (s.refreshes[i]?).bind fun r =>
      (r.step s a).map fun o =>
        { o.1 with refreshes := o.1.refreshes.set i { r with phase := o.2 } }

/-! ## What the tables say -/

/-- No call is between its two locks. -/
def Manager.AtRest (s : Manager) : Prop :=
  s.unclaims = [] ∧ ∀ r ∈ s.refreshes, r.phase = .fetching ∨ r.phase = .ended

/-- Every subscription that is enabled has been refreshed since the last other change. -/
def Manager.AllRefreshed (s : Manager) : Prop :=
  ∀ sub ∈ s.trackerSubscriptions, sub.enabled = true → sub.id ∈ s.refreshed

/-- **In sync**: no tracker is there twice, what the user has put there is there, and after a
refresh of all subscriptions the others are from their last lists. -/
def Manager.InSync (s : Manager) : Prop :=
  s.globalTrackers.Nodup ∧ (∀ url ∈ s.byHand, url ∈ s.globalTrackers) ∧
    (s.AtRest → s.AllRefreshed → ∀ url ∈ s.globalTrackers, url ∈ s.byHand ∨ url ∈ s.bare ∨
      ∃ sub ∈ s.trackerSubscriptions, sub.enabled = true ∧ url ∈ sub.lastTrackers)

/-- The manager as it starts, with the tables of its last session. -/
def restored (globalTrackers : List String) (trackerSources : AList fun _ : String => List Source)
    (trackerSubscriptions : List Subscription) : Manager where
  globalTrackers
  trackerSources
  trackerSubscriptions
  refreshes := []
  unclaims := []
  byHand := globalTrackers.filter fun url => .manual ∈ (trackerSources.lookup url).getD []
  bare := globalTrackers.filter fun url => (trackerSources.lookup url).getD [] = []
  changes := 0
  refreshed := []

/-! ### What a release does -/

@[simp] theorem Manager.sources_mark (s : Manager) (source : Source) (url v : String) :
    (s.mark source url).sources v =
      if v = url then (s.sources v).insert source else s.sources v := by
  unfold Manager.sources Manager.mark
  rw [AList.lookup_insert_eq]
  split
  · rename_i h
    rw [h]
    rfl
  · rfl

theorem Manager.sources_unmark (s : Manager) (source : Source) (url v : String) :
    (s.unmark source url).sources v =
      if v = url then (s.sources v).filter (fun x => x ≠ source) else s.sources v := by
  unfold Manager.unmark
  split
  · rename_i hnone
    split
    · rename_i h
      have hempty : s.sources v = [] := by rw [Manager.sources, h, hnone, Option.getD_none]
      rw [hempty, List.filter_nil]
    · rfl
  · rename_i srcs hsome
    unfold Manager.sources
    rw [AList.lookup_insert_eq]
    split
    · rename_i h
      rw [h, hsome]
      rfl
    · rfl

theorem Manager.sources_dropTracker (s : Manager) (url v : String) :
    (s.dropTracker url).sources v = if v = url then [] else s.sources v := by
  unfold Manager.dropTracker Manager.sources
  rw [AList.lookup_erase_eq]
  split <;> rfl

/-- A state that differs in the list, the sources and what was restored without a source. -/
structure Manager.SameBut (s t : Manager) : Prop where
  subscriptions : t.trackerSubscriptions = s.trackerSubscriptions
  refreshes : t.refreshes = s.refreshes
  unclaims : t.unclaims = s.unclaims
  byHand : t.byHand = s.byHand
  changes : t.changes = s.changes
  refreshed : t.refreshed = s.refreshed

theorem Manager.SameBut.refl (s : Manager) : s.SameBut s := ⟨rfl, rfl, rfl, rfl, rfl, rfl⟩

variable {s t : Manager}

theorem Manager.SameBut.trans {u : Manager} (h : s.SameBut t) (h' : t.SameBut u) :
    s.SameBut u where
  subscriptions := h'.subscriptions.trans h.subscriptions
  refreshes := h'.refreshes.trans h.refreshes
  unclaims := h'.unclaims.trans h.unclaims
  byHand := h'.byHand.trans h.byHand
  changes := h'.changes.trans h.changes
  refreshed := h'.refreshed.trans h.refreshed

theorem Manager.SameBut.otherProvides (h : s.SameBut t) (subId url : String) :
    t.otherProvides subId url = s.otherProvides subId url := by
  rw [Manager.otherProvides, h.subscriptions]
  rfl

theorem Manager.unmark_sameBut (s : Manager) (source : Source) (url : String) :
    s.SameBut (s.unmark source url) := by
  unfold Manager.unmark
  split
  · exact .refl s
  · exact ⟨rfl, rfl, rfl, rfl, rfl, rfl⟩

theorem Manager.unmark_globalTrackers (s : Manager) (source : Source) (url : String) :
    (s.unmark source url).globalTrackers = s.globalTrackers ∧
      (s.unmark source url).bare = s.bare := by
  unfold Manager.unmark
  split
  · exact ⟨rfl, rfl⟩
  · exact ⟨rfl, rfl⟩

theorem releaseTrackerClaim_sameBut (s : Manager) (subId url : String) :
    s.SameBut (releaseTrackerClaim s subId url) := by
  have hunmark := s.unmark_sameBut (.sub subId) url
  unfold releaseTrackerClaim
  simp only
  split
  · exact hunmark
  · split
    · exact hunmark
    · exact hunmark.trans ⟨rfl, rfl, rfl, rfl, rfl, rfl⟩

/-- A tracker whose last source is the subscription, and which no other one had last. -/
def Manager.Goes (s : Manager) (subId url : String) : Prop :=
  (s.sources url).filter (fun x => x ≠ .sub subId) = [] ∧ s.otherProvides subId url = false

instance decidableGoes (s : Manager) (subId url : String) : Decidable (s.Goes subId url) :=
  inferInstanceAs (Decidable (_ ∧ _))

theorem sources_releaseTrackerClaim (s : Manager) (subId url v : String) :
    (releaseTrackerClaim s subId url).sources v =
      if v = url then (s.sources v).filter (fun x => x ≠ .sub subId) else s.sources v := by
  rw [← s.sources_unmark (.sub subId) url v]
  unfold releaseTrackerClaim
  simp only
  split
  · rfl
  · rename_i hempty
    split
    · rfl
    · rw [Manager.sources_dropTracker]
      split
      · rename_i h
        rw [h, not_not.mp hempty]
      · rfl

theorem mem_releaseTrackerClaim (s : Manager) (subId url v : String) :
    (v ∈ (releaseTrackerClaim s subId url).globalTrackers ↔
        v ∈ s.globalTrackers ∧ ¬(v = url ∧ s.Goes subId url)) ∧
      (v ∈ (releaseTrackerClaim s subId url).bare ↔
        v ∈ s.bare ∧ ¬(v = url ∧ s.Goes subId url)) := by
  obtain ⟨hglobal, hbare⟩ := s.unmark_globalTrackers (.sub subId) url
  have hsources := s.sources_unmark (.sub subId) url url
  rw [if_pos rfl] at hsources
  have hprovides := (s.unmark_sameBut (.sub subId) url).otherProvides subId url
  by_cases hgoes : s.Goes subId url
  · have hrelease : releaseTrackerClaim s subId url =
        (s.unmark (.sub subId) url).dropTracker url := by
      unfold releaseTrackerClaim
      simp only
      rw [if_neg (by rw [hsources, hgoes.1]; exact fun h => h rfl), hprovides, hgoes.2]
      rfl
    rw [hrelease]
    simp only [Manager.dropTracker, List.mem_filter, hglobal, hbare, decide_eq_true_eq, hgoes,
      and_true]
  · have hrelease : releaseTrackerClaim s subId url = s.unmark (.sub subId) url := by
      unfold releaseTrackerClaim
      simp only
      split
      · rfl
      · rename_i hempty
        rw [hsources, not_not] at hempty
        rw [if_pos]
        rw [hprovides]
        by_contra hfalse
        exact hgoes ⟨hempty, (Bool.not_eq_true _).mp hfalse⟩
    rw [hrelease, hglobal, hbare]
    simp only [hgoes, and_false, not_false_eq_true, and_true]

theorem goes_releaseTrackerClaim (s : Manager) (subId url v : String) :
    (releaseTrackerClaim s subId url).Goes subId v ↔ s.Goes subId v := by
  have hfilter : ((releaseTrackerClaim s subId url).sources v).filter (fun x => x ≠ .sub subId) =
      (s.sources v).filter fun x => x ≠ .sub subId := by
    rw [sources_releaseTrackerClaim]
    split
    · rw [List.filter_filter]
      simp only [Bool.and_self]
    · rfl
  rw [Manager.Goes, Manager.Goes, hfilter,
    (releaseTrackerClaim_sameBut s subId url).otherProvides subId v]

theorem releaseTrackerClaim_sublist (s : Manager) (subId url : String) :
    (releaseTrackerClaim s subId url).globalTrackers.Sublist s.globalTrackers := by
  have hunmark := (s.unmark_globalTrackers (.sub subId) url).1
  unfold releaseTrackerClaim
  simp only
  split
  · rw [hunmark]
  · split
    · rw [hunmark]
    · rw [← hunmark]
      exact List.filter_sublist

/-- What a subscription's claims on some trackers have left behind. -/
structure Released (s : Manager) (subId : String) (urls : List String) (t : Manager) : Prop where
  same : s.SameBut t
  sources : ∀ v, t.sources v =
    if v ∈ urls then (s.sources v).filter (fun x => x ≠ .sub subId) else s.sources v
  global : ∀ v, v ∈ t.globalTrackers ↔ v ∈ s.globalTrackers ∧ ¬(v ∈ urls ∧ s.Goes subId v)
  bare : ∀ v, v ∈ t.bare ↔ v ∈ s.bare ∧ ¬(v ∈ urls ∧ s.Goes subId v)
  sublist : t.globalTrackers.Sublist s.globalTrackers

theorem released_foldl (subId : String) (urls : List String) (s : Manager) :
    Released s subId urls (urls.foldl (fun s url => releaseTrackerClaim s subId url) s) := by
  induction urls generalizing s with
  | nil =>
    refine ⟨.refl s, fun v => rfl, fun v => ?_, fun v => ?_, List.Sublist.refl _⟩
    · exact ⟨fun h => ⟨h, fun h' => by cases h'.1⟩, And.left⟩
    · exact ⟨fun h => ⟨h, fun h' => by cases h'.1⟩, And.left⟩
  | cons url rest ih =>
    have h := ih (releaseTrackerClaim s subId url)
    rw [List.foldl_cons]
    -- what goes is the same before and after the first release
    have hgoes : ∀ P v, (P ∧ ¬(v = url ∧ s.Goes subId url)) ∧
        ¬(v ∈ rest ∧ (releaseTrackerClaim s subId url).Goes subId v) ↔
          P ∧ ¬(v ∈ url :: rest ∧ s.Goes subId v) := by
      intro P v
      rw [goes_releaseTrackerClaim, List.mem_cons]
      constructor
      · rintro ⟨⟨hP, hfirst⟩, hrest⟩
        refine ⟨hP, ?_⟩
        rintro ⟨rfl | hmem, hg⟩
        · exact hfirst ⟨rfl, hg⟩
        · exact hrest ⟨hmem, hg⟩
      · rintro ⟨hP, hall⟩
        refine ⟨⟨hP, ?_⟩, fun hrest => hall ⟨.inr hrest.1, hrest.2⟩⟩
        rintro ⟨rfl, hg⟩
        exact hall ⟨.inl rfl, hg⟩
    refine ⟨(releaseTrackerClaim_sameBut s subId url).trans h.same, fun v => ?_, fun v => ?_,
      fun v => ?_, h.sublist.trans (releaseTrackerClaim_sublist s subId url)⟩
    · rw [h.sources, sources_releaseTrackerClaim]
      by_cases hv : v = url
      · have hmem : v ∈ url :: rest := hv ▸ List.mem_cons_self
        rw [if_pos hv, if_pos hmem, List.filter_filter]
        simp only [Bool.and_self, ite_self]
      · rw [if_neg hv]
        by_cases hrest : v ∈ rest
        · rw [if_pos hrest, if_pos (List.mem_cons_of_mem url hrest)]
        · rw [if_neg hrest, if_neg fun h => (List.mem_cons.mp h).elim hv hrest]
    · rw [h.global, (mem_releaseTrackerClaim s subId url v).1, hgoes]
    · rw [h.bare, (mem_releaseTrackerClaim s subId url v).2, hgoes]

/-! ### What a refresh does -/

variable {id subId : String} {list : List String}

theorem Manager.mem_claimed {url : String} :
    url ∈ s.claimed subId ↔ .sub subId ∈ s.sources url := by
  rw [Manager.claimed, List.mem_map]
  constructor
  · rintro ⟨⟨u, srcs⟩, he, rfl⟩
    obtain ⟨hpair, hmem⟩ := List.mem_filter.mp he
    rw [Manager.sources, AList.mem_pairs.mp hpair, Option.getD_some]
    exact of_decide_eq_true hmem
  · intro h
    rw [Manager.sources] at h
    cases hlookup : s.trackerSources.lookup url with
    | none =>
      rw [hlookup] at h
      cases h
    | some srcs =>
      rw [hlookup] at h
      exact ⟨(url, srcs), List.mem_filter.mpr ⟨AList.mem_pairs.mpr hlookup, decide_eq_true h⟩, rfl⟩

theorem Manager.claim_sameBut (s : Manager) (subId url : String) :
    s.SameBut (s.claim subId url) := by
  unfold Manager.claim
  split
  · exact ⟨rfl, rfl, rfl, rfl, rfl, rfl⟩
  · exact ⟨rfl, rfl, rfl, rfl, rfl, rfl⟩

theorem Manager.mem_sources_claim (s : Manager) (subId url v : String) (x : Source) :
    x ∈ (s.claim subId url).sources v ↔ x ∈ s.sources v ∨ v = url ∧ x = .sub subId := by
  have hclaim : (s.claim subId url).sources v = (s.mark (.sub subId) url).sources v := by
    unfold Manager.claim
    split <;> rfl
  rw [hclaim, Manager.sources_mark]
  split
  · rename_i h
    rw [List.mem_insert_iff, or_comm]
    exact or_congr_right ⟨fun hx => ⟨h, hx⟩, And.right⟩
  · rename_i h
    exact ⟨.inl, fun hx => hx.elim id fun hx => absurd hx.1 h⟩

theorem Manager.mem_claim (s : Manager) (subId url v : String) :
    v ∈ (s.claim subId url).globalTrackers ↔ v ∈ s.globalTrackers ∨ v = url := by
  unfold Manager.claim
  split
  · rename_i h
    exact ⟨.inl, fun hv => hv.elim id fun hv => hv ▸ h⟩
  · exact List.mem_append.trans (or_congr_right List.mem_singleton)

theorem Manager.nodup_claim (h : s.globalTrackers.Nodup) (subId url : String) :
    (s.claim subId url).globalTrackers.Nodup := by
  unfold Manager.claim
  split
  · exact h
  · rename_i hnot
    refine List.nodup_append.mpr ⟨h, List.nodup_singleton url, fun a ha b hb heq => ?_⟩
    obtain rfl := List.mem_singleton.mp hb
    exact hnot (heq ▸ ha)

/-- What a list that comes in makes of the tables. -/
structure Synced (s : Manager) (subId : String) (remote : List String) (t : Manager) : Prop where
  same : s.SameBut t
  sources : ∀ v x, x ∈ t.sources v ↔
    x ≠ .sub subId ∧ x ∈ s.sources v ∨ x = .sub subId ∧ v ∈ remote
  global : ∀ v, v ∈ t.globalTrackers ↔
    v ∈ remote ∨ v ∈ s.globalTrackers ∧ ¬(.sub subId ∈ s.sources v ∧ s.Goes subId v)
  bare : ∀ v, v ∈ t.bare ↔
    v ∈ s.bare ∧ ¬(.sub subId ∈ s.sources v ∧ v ∉ remote ∧ s.Goes subId v)
  nodup : s.globalTrackers.Nodup → t.globalTrackers.Nodup

/-- The trackers of a list are claimed, one after the other. -/
theorem claims_foldl (subId : String) (remote : List String) (s : Manager) :
    let t := remote.foldl (fun s url => s.claim subId url) s
    s.SameBut t ∧ (∀ v x, x ∈ t.sources v ↔ x ∈ s.sources v ∨ v ∈ remote ∧ x = .sub subId) ∧
      (∀ v, v ∈ t.globalTrackers ↔ v ∈ s.globalTrackers ∨ v ∈ remote) ∧ t.bare = s.bare ∧
        (s.globalTrackers.Nodup → t.globalTrackers.Nodup) := by
  induction remote generalizing s with
  | nil =>
    refine ⟨.refl s, fun v x => ?_, fun v => ?_, rfl, id⟩
    · exact ⟨.inl, fun h => h.elim id fun h => by cases h.1⟩
    · exact ⟨.inl, fun h => h.elim id nofun⟩
  | cons url rest ih =>
    obtain ⟨hsame, hsources, hglobal, hbare, hnodup⟩ := ih (s.claim subId url)
    rw [List.foldl_cons]
    refine ⟨(s.claim_sameBut subId url).trans hsame, fun v x => ?_, fun v => ?_, ?_, fun h =>
      hnodup (Manager.nodup_claim h subId url)⟩
    · rw [hsources, s.mem_sources_claim, List.mem_cons, or_and_right, or_assoc]
    · rw [hglobal, s.mem_claim, List.mem_cons, or_assoc]
    · rw [hbare]
      unfold Manager.claim
      split <;> rfl

theorem synced_syncTrackers (s : Manager) (subId : String) (remote : List String) :
    Synced s subId remote (syncTrackers s subId remote) := by
  have hreleased := released_foldl subId ((s.claimed subId).filter fun url => url ∉ remote) s
  have hdropped : ∀ v, v ∈ (s.claimed subId).filter (fun url => url ∉ remote) ↔
      .sub subId ∈ s.sources v ∧ v ∉ remote := by
    intro v
    rw [List.mem_filter, Manager.mem_claimed, decide_eq_true_iff]
  obtain ⟨hsame, hsources, hglobal, hbare, hnodup⟩ := claims_foldl subId remote
    (((s.claimed subId).filter fun url => url ∉ remote).foldl
      (fun s url => releaseTrackerClaim s subId url) s)
  refine ⟨hreleased.same.trans hsame, fun v x => ?_, fun v => ?_, fun v => ?_, fun h =>
    hnodup (hreleased.sublist.nodup h)⟩
  · rw [syncTrackers, hsources, hreleased.sources]
    simp only [hdropped]
    by_cases hx : x = .sub subId
    · subst hx
      split
      · rename_i h
        simp [h.2]
      · rename_i h
        have hclaim : .sub subId ∈ s.sources v → v ∈ remote := fun hsrc =>
          Classical.byContradiction fun hnot => h ⟨hsrc, hnot⟩
        exact ⟨fun h => h.elim (fun hsrc => .inr ⟨rfl, hclaim hsrc⟩) fun h => .inr ⟨rfl, h.1⟩,
          fun h => h.elim (fun h => absurd rfl h.1) fun h => .inr ⟨h.2, rfl⟩⟩
    · split <;> simp [hx]
  · rw [syncTrackers, hglobal, hreleased.global]
    simp only [hdropped]
    by_cases hv : v ∈ remote
    · exact ⟨fun _ => .inl hv, fun _ => .inr hv⟩
    · simp only [hv, or_false, false_or, not_false_eq_true, and_true]
  · rw [syncTrackers, hbare, hreleased.bare]
    simp only [hdropped, and_assoc]

/-- Unclaiming is what an empty list would do. -/
theorem unclaimTrackers_eq (s : Manager) (subId : String) :
    unclaimTrackers s subId = syncTrackers s subId [] := by
  unfold unclaimTrackers syncTrackers
  rw [List.filter_eq_self.mpr fun url _ => decide_eq_true List.not_mem_nil]
  rfl

/-! ## Runs whose steps stay clear of each other -/

/-- No tracker that the subscription lets go is kept for another one that does not claim it. -/
def Manager.Leaves (s : Manager) (subId : String) (remote : List String) : Prop :=
  ∀ url ∈ s.globalTrackers, .sub subId ∈ s.sources url → url ∉ remote →
    (s.sources url).filter (fun x => x ≠ .sub subId) = [] → s.otherProvides subId url = false

/-- A subscription of that id is there, and enabled. -/
def Manager.Enabled (s : Manager) (id : String) : Prop :=
  ∃ sub ∈ s.trackerSubscriptions, sub.id = id ∧ sub.enabled = true

/-- Whether a refresh is between its two locks. -/
def Phase.isSynced : Phase → Bool
  | .synced _ _ => true
  | _ => false

/-- A list comes in for a subscription that is enabled and has no other list between its locks; no
tracker is kept without a source; and the user lists no tracker twice, nor one that is there without
his mark. -/
def Clear (s : Manager) : Event → Prop
  | .replace list =>
    list.Nodup ∧ ∀ url ∈ list, url ∈ s.globalTrackers → .manual ∈ s.sources url
  | .removeSubscription id => s.Leaves id []
  | .unclaim id => s.Leaves id []
  | .act i (.fetched lines) => ∀ r ∈ s.refreshes[i]?, r.phase = .fetching →
    lines.elim [] parseTrackers ≠ [] → s.Enabled r.id ∧
      (∀ r' ∈ s.refreshes, r'.id = r.id → r'.phase.isSynced = false) ∧
        s.Leaves r.id (lines.elim [] parseTrackers)
  | _ => True

/-- The claims of a subscription are answered for: it is enabled, or about to lose them. -/
def Manager.Answers (s : Manager) (id : String) : Prop := s.Enabled id ∨ id ∈ s.unclaims

/-- The list and the marks of the user are in order. -/
structure Manager.Tidy (s : Manager) : Prop where
  nodup : s.globalTrackers.Nodup
  ids : (s.trackerSubscriptions.map Subscription.id).Nodup
  hand : ∀ url ∈ s.byHand, url ∈ s.globalTrackers ∧ .manual ∈ s.sources url
  marks : ∀ url, .manual ∈ s.sources url → url ∈ s.byHand
  sourced : ∀ url ∈ s.globalTrackers, url ∈ s.bare ∨ ∃ x, x ∈ s.sources url

/-- What each step keeps. -/
structure Manager.Sound (s : Manager) : Prop extends s.Tidy where
  claims : ∀ url id, .sub id ∈ s.sources url → s.Answers id
  /-- Between the locks, the subscription claims what its list has. -/
  written : ∀ r ∈ s.refreshes, ∀ list n, r.phase = .synced list n →
    ∀ url, .sub r.id ∈ s.sources url → url ∈ list
  /-- Behind them, it claims what it had last. -/
  last : ∀ sub ∈ s.trackerSubscriptions, sub.id ∈ s.refreshed →
    (∃ r ∈ s.refreshes, r.id = sub.id ∧ r.phase.isSynced = true) ∨
      ∀ url, .sub sub.id ∈ s.sources url → url ∈ sub.lastTrackers

theorem Manager.Sound.inSync (h : s.Sound) : s.InSync := by
  refine ⟨h.nodup, fun url hurl => (h.hand url hurl).1, fun hrest hall url hurl => ?_⟩
  rcases h.sourced url hurl with hbare | ⟨x, hx⟩
  · exact .inr (.inl hbare)
  · cases x with
    | manual => exact .inl (h.marks url hx)
    | sub id =>
      rcases h.claims url id hx with ⟨sub, hsub, rfl, henabled⟩ | hpending
      · refine .inr (.inr ⟨sub, hsub, henabled, ?_⟩)
        rcases h.last sub hsub (hall sub hsub henabled) with ⟨r, hr, -, hsynced⟩ | hlast
        · rcases hrest.2 r hr with hphase | hphase
          · rw [hphase] at hsynced
            cases hsynced
          · rw [hphase] at hsynced
            cases hsynced
        · exact hlast url hx
      · rw [hrest.1] at hpending
        cases hpending

/-- A list that comes in keeps the tables in order. -/
theorem Manager.Tidy.synced {remote : List String} (h : s.Tidy) (hleaves : s.Leaves subId remote)
    (hs : Synced s subId remote t) : t.Tidy := by
  have hmanual : ∀ url, .manual ∈ t.sources url ↔ .manual ∈ s.sources url := by
    intro url
    rw [hs.sources]
    constructor
    · rintro (⟨-, hmark⟩ | ⟨hsub, -⟩)
      · exact hmark
      · cases hsub
    · intro hmark
      exact .inl ⟨nofun, hmark⟩
  refine ⟨hs.nodup h.nodup, hs.same.subscriptions ▸ h.ids, fun url hurl => ?_, fun url hmark => ?_,
    fun url hurl => ?_⟩
  · -- the user's mark is a source that stays
    rw [hs.same.byHand] at hurl
    obtain ⟨hmem, hmark⟩ := h.hand url hurl
    refine ⟨(hs.global url).mpr (.inr ⟨hmem, fun hgone => ?_⟩), (hmanual url).mpr hmark⟩
    have hleft : .manual ∈ (s.sources url).filter fun x => x ≠ .sub subId :=
      List.mem_filter.mpr ⟨hmark, decide_eq_true nofun⟩
    rw [hgone.2.1] at hleft
    cases hleft
  · rw [hs.same.byHand]
    exact h.marks url ((hmanual url).mp hmark)
  · by_cases hremote : url ∈ remote
    · exact .inr ⟨.sub subId, (hs.sources url _).mpr (.inr ⟨rfl, hremote⟩)⟩
    · obtain ⟨hmem, hstays⟩ := ((hs.global url).mp hurl).resolve_left hremote
      rcases h.sourced url hmem with hbare | ⟨x, hx⟩
      · exact .inl ((hs.bare url).mpr ⟨hbare, fun hgone => hstays ⟨hgone.1, hgone.2.2⟩⟩)
      · by_cases hclaim : .sub subId ∈ s.sources url
        · -- another source is left, or the tracker would have gone
          have hleft : (s.sources url).filter (fun x => x ≠ .sub subId) ≠ [] := fun hnone =>
            hstays ⟨hclaim, hnone, hleaves url hmem hclaim hremote hnone⟩
          obtain ⟨y, hy⟩ := List.exists_mem_of_ne_nil _ hleft
          obtain ⟨hmemy, hne⟩ := List.mem_filter.mp hy
          exact .inr ⟨y, (hs.sources url y).mpr (.inl ⟨of_decide_eq_true hne, hmemy⟩)⟩
        · refine .inr ⟨x, (hs.sources url x).mpr (.inl ⟨?_, hx⟩)⟩
          rintro rfl
          exact hclaim hx

/-- A change that adds no claim of a subscription. -/
theorem Manager.Sound.changed (h : s.Sound) (ht : t.Tidy)
    (hsub : ∀ url id, .sub id ∈ t.sources url → .sub id ∈ s.sources url)
    (hanswers : ∀ id, s.Answers id → t.Answers id) (hrefreshes : t.refreshes = s.refreshes)
    (hrefreshed : t.refreshed = [] ∨
      t.refreshed = s.refreshed ∧ t.trackerSubscriptions = s.trackerSubscriptions) :
    t.Sound where
  toTidy := ht
  claims url id hclaim := hanswers id (h.claims url id (hsub url id hclaim))
  written r hr list n hphase url hclaim :=
    h.written r (hrefreshes ▸ hr) list n hphase url (hsub url r.id hclaim)
  last sub hmem hsince := by
    rcases hrefreshed with hnone | ⟨hsame, hsubs⟩
    · rw [hnone] at hsince
      cases hsince
    · rw [hsame] at hsince
      rw [hsubs] at hmem
      rw [hrefreshes]
      exact (h.last sub hmem hsince).imp_right fun hlast url hclaim =>
        hlast url (hsub url sub.id hclaim)

/-! ### Steps -/

theorem Manager.Sound.addGlobalTracker (h : s.Sound) (url : String) :
    (s.addGlobalTracker url).Sound := by
  unfold Manager.addGlobalTracker
  split
  · exact h
  · rename_i hnew
    have hsources : ∀ v x, x ∈ (s.mark .manual url).sources v ↔
        x ∈ s.sources v ∨ v = url ∧ x = .manual := by
      intro v x
      rw [s.sources_mark]
      split
      · rename_i hv
        rw [List.mem_insert_iff, or_comm]
        exact or_congr_right ⟨fun hx => ⟨hv, hx⟩, And.right⟩
      · rename_i hv
        exact ⟨.inl, fun hx => hx.elim id fun hx => absurd hx.1 hv⟩
    refine h.changed ⟨?_, h.ids, ?_, ?_, ?_⟩ (fun v id hclaim => ?_) (fun id hid => hid) rfl
      (.inl rfl)
    · refine List.nodup_append.mpr ⟨h.nodup, List.nodup_singleton url, fun a ha b hb heq => ?_⟩
      obtain rfl := List.mem_singleton.mp hb
      exact hnew (.inr (heq ▸ ha))
    · intro v hv
      rcases List.mem_cons.mp hv with rfl | hv
      · exact ⟨List.mem_append_right _ (List.mem_singleton_self v),
          (hsources v _).mpr (.inr ⟨rfl, rfl⟩)⟩
      · obtain ⟨hmem, hmark⟩ := h.hand v hv
        exact ⟨List.mem_append_left _ hmem, (hsources v _).mpr (.inl hmark)⟩
    · intro v hmark
      rcases (hsources v _).mp hmark with hmark | ⟨rfl, -⟩
      · exact List.mem_cons_of_mem url (h.marks v hmark)
      · exact List.mem_cons_self
    · intro v hv
      rcases List.mem_append.mp hv with hv | hv
      · exact (h.sourced v hv).imp_right fun ⟨x, hx⟩ => ⟨x, (hsources v x).mpr (.inl hx)⟩
      · obtain rfl := List.mem_singleton.mp hv
        exact .inr ⟨.manual, (hsources v _).mpr (.inr ⟨rfl, rfl⟩)⟩
    · rcases (hsources v _).mp hclaim with hclaim | ⟨-, hne⟩
      · exact hclaim
      · cases hne

theorem Manager.Sound.removeGlobalTracker (h : s.Sound) (url : String) :
    (s.removeGlobalTracker url).Sound := by
  have hsources : ∀ v x, x ∈ (s.dropTracker url).sources v ↔ v ≠ url ∧ x ∈ s.sources v := by
    intro v x
    rw [s.sources_dropTracker]
    split
    · rename_i hv
      exact ⟨nofun, fun hx => absurd hv hx.1⟩
    · rename_i hv
      exact ⟨fun hx => ⟨hv, hx⟩, And.right⟩
  have hfilter : ∀ (l : List String) v, v ∈ l.filter (fun t => t ≠ url) ↔ v ≠ url ∧ v ∈ l := by
    intro l v
    rw [List.mem_filter, decide_eq_true_iff, and_comm]
  have htidy : ({ s.dropTracker url with
      byHand := s.byHand.filter fun t => t ≠ url } : Manager).Tidy := by
    refine ⟨h.nodup.filter _, h.ids, fun v hv => ?_, fun v hmark => ?_, fun v hv => ?_⟩
    · obtain ⟨hne, hv⟩ := (hfilter _ v).mp hv
      obtain ⟨hmem, hmark⟩ := h.hand v hv
      exact ⟨(hfilter _ v).mpr ⟨hne, hmem⟩, (hsources v _).mpr ⟨hne, hmark⟩⟩
    · obtain ⟨hne, hmark⟩ := (hsources v _).mp hmark
      exact (hfilter _ v).mpr ⟨hne, h.marks v hmark⟩
    · obtain ⟨hne, hv⟩ := (hfilter _ v).mp hv
      exact (h.sourced v hv).imp (fun hbare => (hfilter _ v).mpr ⟨hne, hbare⟩)
        fun ⟨x, hx⟩ => ⟨x, (hsources v x).mpr ⟨hne, hx⟩⟩
  have hsub : ∀ v id, .sub id ∈ (s.dropTracker url).sources v → .sub id ∈ s.sources v :=
    fun v id hclaim => ((hsources v _).mp hclaim).2
  unfold Manager.removeGlobalTracker
  simp only
  split
  · exact h.changed ⟨htidy.nodup, htidy.ids, htidy.hand, htidy.marks, htidy.sourced⟩ hsub
      (fun id hid => hid) rfl (.inl rfl)
  · exact h.changed htidy hsub (fun id hid => hid) rfl (.inr ⟨rfl, rfl⟩)

theorem mem_sources_foldl_mark (urls : List String) (s : Manager) (v : String) (x : Source) :
    x ∈ (urls.foldl (fun s url => s.mark .manual url) s).sources v ↔
      x ∈ s.sources v ∨ v ∈ urls ∧ x = .manual := by
  induction urls generalizing s with
  | nil => exact ⟨.inl, fun h => h.elim id fun h => by cases h.1⟩
  | cons url rest ih =>
    rw [List.foldl_cons, ih, s.sources_mark]
    split
    · rename_i hv
      rw [List.mem_insert_iff, List.mem_cons]
      constructor
      · rintro ((rfl | hx) | ⟨hv', rfl⟩)
        · exact .inr ⟨.inl hv, rfl⟩
        · exact .inl hx
        · exact .inr ⟨.inr hv', rfl⟩
      · rintro (hx | ⟨-, rfl⟩)
        · exact .inl (.inr hx)
        · exact .inl (.inl rfl)
    · rename_i hv
      rw [List.mem_cons, or_iff_right hv]

theorem foldl_mark_sameBut (urls : List String) (s : Manager) :
    s.SameBut (urls.foldl (fun s url => s.mark .manual url) s) ∧
      (urls.foldl (fun s url => s.mark .manual url) s).globalTrackers = s.globalTrackers ∧
        (urls.foldl (fun s url => s.mark .manual url) s).bare = s.bare := by
  induction urls generalizing s with
  | nil => exact ⟨.refl s, rfl, rfl⟩
  | cons url rest ih =>
    obtain ⟨hsame, hglobal, hbare⟩ := ih (s.mark .manual url)
    have hmark : s.SameBut (s.mark .manual url) := ⟨rfl, rfl, rfl, rfl, rfl, rfl⟩
    exact ⟨hmark.trans hsame, hglobal, hbare⟩

theorem lookup_foldl_erase (urls : List String) (m : AList fun _ : String => List Source)
    (v : String) :
    (urls.foldl (fun m url => m.erase url) m).lookup v =
      if v ∈ urls then none else m.lookup v := by
  induction urls generalizing m with
  | nil => rfl
  | cons url rest ih =>
    rw [List.foldl_cons, ih, AList.lookup_erase_eq]
    by_cases hrest : v ∈ rest
    · rw [if_pos hrest, if_pos (List.mem_cons_of_mem url hrest)]
    · rw [if_neg hrest]
      by_cases heq : v = url
      · rw [if_pos heq, if_pos (heq ▸ List.mem_cons_self)]
      · rw [if_neg heq, if_neg fun h => (List.mem_cons.mp h).elim heq hrest]

theorem Manager.mem_sources_replace (s : Manager) (list : List String) (v : String) (x : Source) :
    x ∈ (s.replace list).sources v ↔
      (v ∈ s.globalTrackers → v ∈ list) ∧
        (x ∈ s.sources v ∨ (v ∈ list ∧ v ∉ s.globalTrackers) ∧ x = .manual) := by
  let added := list.filter fun t => t ∉ s.globalTrackers
  let marked := added.foldl (fun s url => s.mark .manual url) { s with globalTrackers := list }
  have hadded : v ∈ added ↔ v ∈ list ∧ v ∉ s.globalTrackers := by
    rw [List.mem_filter, decide_eq_true_iff]
  have hmarked : x ∈ marked.sources v ↔
      x ∈ s.sources v ∨ (v ∈ list ∧ v ∉ s.globalTrackers) ∧ x = .manual := by
    rw [← hadded]
    exact mem_sources_foldl_mark added _ v x
  have hreplace : (s.replace list).sources v =
      if v ∈ s.globalTrackers.filter (fun t => t ∉ list) then [] else marked.sources v := by
    show ((List.foldl _ marked.trackerSources _).lookup v).getD [] = _
    rw [lookup_foldl_erase]
    split <;> rfl
  rw [hreplace, ← hmarked]
  split
  · rename_i hremoved
    obtain ⟨hmem, hnot⟩ := List.mem_filter.mp hremoved
    exact ⟨nofun, fun hx => absurd (hx.1 hmem) (of_decide_eq_true hnot)⟩
  · rename_i hkept
    refine ⟨fun hx => ⟨fun hmem => ?_, hx⟩, And.right⟩
    by_contra hnot
    exact hkept (List.mem_filter.mpr ⟨hmem, decide_eq_true hnot⟩)

theorem Manager.Sound.replace (h : s.Sound) (hnodup : list.Nodup)
    (hmarks : ∀ url ∈ list, url ∈ s.globalTrackers → .manual ∈ s.sources url) :
    (s.replace list).Sound := by
  obtain ⟨hsame, hglobal, -⟩ := foldl_mark_sameBut (list.filter fun t => t ∉ s.globalTrackers)
    { s with globalTrackers := list }
  have hlist : (s.replace list).globalTrackers = list := hglobal
  have hmarked : ∀ url ∈ list, .manual ∈ (s.replace list).sources url := by
    intro url hurl
    refine (s.mem_sources_replace list url _).mpr ⟨fun _ => hurl, ?_⟩
    by_cases hmem : url ∈ s.globalTrackers
    · exact .inl (hmarks url hurl hmem)
    · exact .inr ⟨⟨hurl, hmem⟩, rfl⟩
  have hsubs : (s.replace list).trackerSubscriptions = s.trackerSubscriptions :=
    hsame.subscriptions
  have hunclaims : (s.replace list).unclaims = s.unclaims := hsame.unclaims
  have hmem : ∀ url, url ∈ (s.replace list).globalTrackers ↔ url ∈ list := by
    intro url
    rw [hlist]
  refine h.changed ⟨?_, hsubs ▸ h.ids, fun url hurl => ?_, fun url hmark => ?_,
    fun url hurl => .inr ⟨_, hmarked url ((hmem url).mp hurl)⟩⟩ (fun url id hclaim => ?_)
    (fun id hid => ?_) hsame.refreshes (.inl rfl)
  · rw [hlist]
    exact hnodup
  · exact ⟨(hmem url).mpr hurl, hmarked url hurl⟩
  · show url ∈ list
    obtain ⟨hkept, hmark | ⟨⟨hurl, -⟩, -⟩⟩ := (s.mem_sources_replace list url _).mp hmark
    · exact hkept (h.hand url (h.marks url hmark)).1
    · exact hurl
  · obtain ⟨-, hclaim | ⟨-, hne⟩⟩ := (s.mem_sources_replace list url _).mp hclaim
    · exact hclaim
    · cases hne
  · rw [Manager.Answers, Manager.Enabled, hsubs, hunclaims]
    exact hid

theorem Manager.Sound.addSubscription (h : s.Sound) (hfresh : s.FreshId id) (url : String)
    (enabled : Bool) : (s.addSubscription id url enabled).Sound := by
  unfold Manager.addSubscription
  split
  · exact h
  · refine h.changed ⟨h.nodup, ?_, h.hand, h.marks, h.sourced⟩ (fun v id' hclaim => hclaim)
      (fun id' hid => ?_) rfl (.inl rfl)
    · show ((s.trackerSubscriptions ++ [_]).map Subscription.id).Nodup
      rw [List.map_append]
      refine List.nodup_append.mpr ⟨h.ids, List.nodup_singleton id, fun a ha b hb heq => ?_⟩
      obtain ⟨sub, hsub, rfl⟩ := List.mem_map.mp ha
      obtain rfl := List.mem_singleton.mp hb
      exact hfresh.1 sub hsub heq
    · exact hid.imp_left fun ⟨sub, hsub, hsubid⟩ => ⟨sub, List.mem_append_left _ hsub, hsubid⟩

/-- The subscription loses its claims; what answers for the others is as it was. -/
theorem Manager.Sound.unclaimed {u : Manager} (h : s.Sound) (hleaves : s.Leaves subId [])
    (hids : (u.trackerSubscriptions.map Subscription.id).Nodup)
    (hglobal : u.globalTrackers = s.globalTrackers) (hsources : u.trackerSources = s.trackerSources)
    (hbare : u.bare = s.bare) (hbyHand : u.byHand = s.byHand)
    (hrefreshes : u.refreshes = s.refreshes)
    (hprovides : ∀ url, u.otherProvides subId url = s.otherProvides subId url)
    (hanswers : ∀ id, id ≠ subId → s.Answers id → u.Answers id) :
    (unclaimTrackers u subId).changed.Sound := by
  have hsrc : ∀ url, u.sources url = s.sources url := by
    intro url
    rw [Manager.sources, hsources]
    rfl
  have hu : u.Tidy := by
    refine ⟨hglobal ▸ h.nodup, hids, fun url hurl => ?_, fun url hmark => ?_, fun url hurl => ?_⟩
    · rw [hglobal, hsrc]
      exact h.hand url (hbyHand ▸ hurl)
    · rw [hbyHand]
      exact h.marks url (hsrc url ▸ hmark)
    · rw [hbare, hsrc]
      exact h.sourced url (hglobal ▸ hurl)
  have hleaves' : u.Leaves subId [] := by
    intro url hurl hclaim hnot hnone
    rw [hprovides]
    exact hleaves url (hglobal ▸ hurl) (hsrc url ▸ hclaim) hnot (hsrc url ▸ hnone)
  have hs : Synced u subId [] (unclaimTrackers u subId) :=
    unclaimTrackers_eq u subId ▸ synced_syncTrackers u subId []
  -- what is left of the claims is of others
  have hclaims : ∀ url id, .sub id ∈ (unclaimTrackers u subId).sources url →
      id ≠ subId ∧ .sub id ∈ s.sources url := by
    intro url id hclaim
    rcases (hs.sources url _).mp hclaim with ⟨hne, hmem⟩ | ⟨-, hmem⟩
    · exact ⟨fun heq => hne (heq ▸ rfl), hsrc url ▸ hmem⟩
    · cases hmem
  have htidy := hu.synced hleaves' hs
  refine ⟨⟨htidy.nodup, htidy.ids, htidy.hand, htidy.marks, htidy.sourced⟩, fun url id hclaim => ?_,
    fun r hr list n hphase url hclaim => ?_, fun sub _ hsince => by cases hsince⟩
  · obtain ⟨hne, hmem⟩ := hclaims url id hclaim
    have hanswer := hanswers id hne (h.claims url id hmem)
    rw [Manager.Answers, Manager.Enabled] at hanswer ⊢
    rwa [← hs.same.subscriptions, ← hs.same.unclaims] at hanswer
  · have hr' : r ∈ s.refreshes := hrefreshes ▸ hs.same.refreshes ▸ hr
    exact h.written r hr' list n hphase url (hclaims url r.id hclaim).2

theorem Manager.otherProvides_filter (s : Manager) (subId url : String) :
    Manager.otherProvides
        { s with trackerSubscriptions := s.trackerSubscriptions.filter fun sub => sub.id ≠ subId }
        subId url = s.otherProvides subId url := by
  unfold Manager.otherProvides
  rw [List.any_filter]
  congr 1
  funext sub
  cases decide (sub.id ≠ subId) with
  | false => rfl
  | true => rfl

theorem Manager.Sound.removeSubscription (h : s.Sound) (hleaves : s.Leaves id []) :
    (s.removeSubscription id).Sound := by
  unfold Manager.removeSubscription
  split
  · refine h.unclaimed hleaves ?_ rfl rfl rfl rfl rfl (s.otherProvides_filter id)
      fun id' hne hid => ?_
    · exact h.ids.sublist (List.filter_sublist.map _)
    · refine hid.imp_left fun ⟨sub, hsub, hsubid, henabled⟩ => ⟨sub, ?_, hsubid, henabled⟩
      exact List.mem_filter.mpr ⟨hsub, decide_eq_true (hsubid ▸ hne)⟩
  · exact h

theorem Manager.Sound.unclaim (h : s.Sound) (hleaves : s.Leaves id []) :
    (unclaimTrackers { s with unclaims := s.unclaims.erase id } id).changed.Sound := by
  refine h.unclaimed hleaves h.ids rfl rfl rfl rfl rfl (fun url => rfl) fun id' hne hid => ?_
  exact hid.imp_right fun hmem => (List.mem_erase_of_ne hne).mpr hmem

/-- The first subscription of an id is the only one. -/
theorem updateFirst_eq_map (id : String) (f : Subscription → Subscription) {l : List Subscription}
    (h : (l.map Subscription.id).Nodup) :
    updateFirst id f l = l.map fun sub => if sub.id = id then f sub else sub := by
  induction l with
  | nil => rfl
  | cons sub rest ih =>
    obtain ⟨hnot, hrest⟩ := List.nodup_cons.mp h
    rw [updateFirst, List.map_cons]
    split
    · rename_i hid
      congr 1
      refine (List.map_congr_left fun sub' hsub' => ?_).trans (List.map_id rest) |>.symm
      rw [if_neg]
      · rfl
      · intro hid'
        exact hnot (List.mem_map.mpr ⟨sub', hsub', hid'.trans hid.symm⟩)
    · rw [ih hrest]

theorem map_id_updateFirst (id : String) {f : Subscription → Subscription}
    (hf : ∀ sub, (f sub).id = sub.id) {l : List Subscription}
    (h : (l.map Subscription.id).Nodup) :
    (updateFirst id f l).map Subscription.id = l.map Subscription.id := by
  rw [updateFirst_eq_map id f h, List.map_map]
  refine List.map_congr_left fun sub _ => ?_
  show (if sub.id = id then f sub else sub).id = sub.id
  split
  · exact hf sub
  · rfl

theorem Manager.Sound.toggleSubscription (h : s.Sound) (id : String) :
    (s.toggleSubscription id).Sound := by
  unfold Manager.toggleSubscription
  split
  · exact h
  · rename_i sub₀ hfind
    refine h.changed ⟨h.nodup, ?_, h.hand, h.marks, h.sourced⟩ (fun v id' hclaim => hclaim)
      (fun id' hid => ?_) rfl (.inl rfl)
    · show (List.map _ (updateFirst id _ s.trackerSubscriptions)).Nodup
      have hsame := map_id_updateFirst id (f := fun sub => { sub with enabled := !sub.enabled })
        (fun _ => rfl) h.ids
      exact hsame ▸ h.ids
    · rcases hid with ⟨sub, hsub, rfl, henabled⟩ | hpending
      · by_cases hid : sub.id = id
        · -- the one that is disabled is about to lose its claims
          have hsub₀ : sub₀ = sub := by
            have hid₀ : sub₀.id = id := by
              have hsat := List.find?_some hfind
              exact of_decide_eq_true hsat
            exact List.inj_on_of_nodup_map h.ids (List.mem_of_find?_eq_some hfind) hsub
              (hid₀.trans hid.symm)
          right
          show sub.id ∈ if sub₀.enabled then s.unclaims ++ [id] else s.unclaims
          rw [hsub₀, henabled, if_pos rfl, hid]
          exact List.mem_append_right _ (List.mem_singleton_self id)
        · refine .inl ⟨sub, ?_, rfl, henabled⟩
          show sub ∈ updateFirst id _ s.trackerSubscriptions
          rw [updateFirst_eq_map id _ h.ids]
          exact List.mem_map.mpr ⟨sub, hsub, if_neg hid⟩
      · right
        show id' ∈ if sub₀.enabled then s.unclaims ++ [id] else s.unclaims
        split
        · exact List.mem_append_left _ hpending
        · exact hpending

variable {i : Nat} {r : Refresh}

theorem mem_set_of_ne {l : List Refresh} {r' x : Refresh} (hi : l[i]? = some r) (hr' : r' ∈ l)
    (hne : r' ≠ r) : r' ∈ l.set i x := by
  obtain ⟨j, hj⟩ := List.getElem?_of_mem hr'
  refine List.mem_of_getElem? (i := j) ?_
  rw [List.getElem?_set_ne, hj]
  rintro rfl
  exact hne (Option.some.inj (hj.symm.trans hi))

/-- A refresh that ends without a list. -/
theorem Manager.Sound.ended (h : s.Sound) (hi : s.refreshes[i]? = some r)
    (hphase : r.phase = .fetching) :
    ({ s with refreshes := s.refreshes.set i { r with phase := .ended } } : Manager).Sound where
  nodup := h.nodup
  ids := h.ids
  hand := h.hand
  marks := h.marks
  sourced := h.sourced
  claims := h.claims
  written r' hr' list n hsynced := by
    rcases List.mem_or_eq_of_mem_set hr' with hr' | rfl
    · exact h.written r' hr' list n hsynced
    · cases hsynced
  last sub hsub hsince := by
    rcases h.last sub hsub hsince with ⟨r', hr', hid, hsynced⟩ | hlast
    · refine .inl ⟨r', mem_set_of_ne hi hr' ?_, hid, hsynced⟩
      rintro rfl
      rw [hphase] at hsynced
      cases hsynced
    · exact .inr hlast

/-- A list comes in. -/
theorem Manager.Sound.synced (h : s.Sound) (hi : s.refreshes[i]? = some r)
    (hphase : r.phase = .fetching) (henabled : s.Enabled r.id)
    (halone : ∀ r' ∈ s.refreshes, r'.id = r.id → r'.phase.isSynced = false)
    (hleaves : s.Leaves r.id list) :
    ({ syncTrackers s r.id list with
      refreshes := (syncTrackers s r.id list).refreshes.set i
        { r with phase := .synced list s.changes } } : Manager).Sound := by
  have hs := synced_syncTrackers s r.id list
  have htidy := h.toTidy.synced hleaves hs
  have hother : ∀ url id, id ≠ r.id → .sub id ∈ (syncTrackers s r.id list).sources url →
      .sub id ∈ s.sources url := by
    intro url id hne hclaim
    rcases (hs.sources url _).mp hclaim with ⟨-, hmem⟩ | ⟨heq, -⟩
    · exact hmem
    · exact absurd (Source.sub.inj heq) hne
  rw [hs.same.refreshes]
  refine ⟨⟨htidy.nodup, htidy.ids, htidy.hand, htidy.marks, htidy.sourced⟩, fun url id hclaim => ?_,
    fun r' hr' list' n hsynced url hclaim => ?_, fun sub hsub hsince => ?_⟩
  · rw [Manager.Answers, Manager.Enabled, hs.same.subscriptions, hs.same.unclaims]
    by_cases hid : id = r.id
    · exact .inl (hid ▸ henabled)
    · exact h.claims url id (hother url id hid hclaim)
  · rcases List.mem_or_eq_of_mem_set hr' with hr' | rfl
    · have hne : r'.id ≠ r.id := by
        intro heq
        have hnot := halone r' hr' heq
        rw [hsynced] at hnot
        cases hnot
      exact h.written r' hr' list' n hsynced url (hother url r'.id hne hclaim)
    · -- the subscription claims what has come in, and no more
      obtain ⟨rfl, -⟩ := Phase.synced.inj hsynced
      rcases (hs.sources url _).mp hclaim with ⟨hne, -⟩ | ⟨-, hmem⟩
      · exact absurd rfl hne
      · exact hmem
  · by_cases hid : sub.id = r.id
    · refine .inl ⟨_, List.mem_set (List.getElem?_eq_some_iff.mp hi).1 _, hid.symm, rfl⟩
    · change sub ∈ (syncTrackers s r.id list).trackerSubscriptions at hsub
      change sub.id ∈ (syncTrackers s r.id list).refreshed at hsince
      rw [hs.same.subscriptions] at hsub
      rw [hs.same.refreshed] at hsince
      rcases h.last sub hsub hsince with ⟨r', hr', hid', hsynced⟩ | hlast
      · refine .inl ⟨r', mem_set_of_ne hi hr' ?_, hid', hsynced⟩
        rintro rfl
        exact hid hid'.symm
      · exact .inr fun url hclaim => hlast url (hother url sub.id hid hclaim)

/-- What the subscription had last is written. -/
theorem Manager.Sound.finished (h : s.Sound) {n : Nat} (hi : s.refreshes[i]? = some r)
    (hphase : r.phase = .synced list n) :
    ({ s with
      trackerSubscriptions :=
        updateFirst r.id (fun sub => { sub with lastTrackers := list }) s.trackerSubscriptions
      refreshed := if n = s.changes then r.id :: s.refreshed else s.refreshed
      refreshes := s.refreshes.set i { r with phase := .ended } } : Manager).Sound := by
  have hmap := updateFirst_eq_map r.id (fun sub => { sub with lastTrackers := list }) h.ids
  have hids := map_id_updateFirst r.id (f := fun sub => { sub with lastTrackers := list })
    (fun _ => rfl) h.ids
  refine ⟨⟨h.nodup, hids ▸ h.ids, h.hand, h.marks, h.sourced⟩, fun url id hclaim => ?_,
    fun r' hr' list' n' hsynced => ?_, fun sub hsub hsince => ?_⟩
  · refine (h.claims url id hclaim).imp_left fun ⟨sub, hsub, hid, henabled⟩ => ?_
    refine ⟨_, hmap ▸ List.mem_map.mpr ⟨sub, hsub, rfl⟩, ?_, ?_⟩
    · split
      · exact hid
      · exact hid
    · split
      · exact henabled
      · exact henabled
  · rcases List.mem_or_eq_of_mem_set hr' with hr' | rfl
    · exact h.written r' hr' list' n' hsynced
    · cases hsynced
  · change sub ∈ updateFirst r.id _ s.trackerSubscriptions at hsub
    rw [hmap] at hsub
    obtain ⟨sub₀, hsub₀, heq⟩ := List.mem_map.mp hsub
    by_cases hid : sub₀.id = r.id
    · rw [if_pos hid] at heq
      obtain rfl := heq
      exact .inr fun url hclaim =>
        h.written r (List.mem_of_getElem? hi) list n hphase url (hid ▸ hclaim)
    · rw [if_neg hid] at heq
      obtain rfl := heq
      have hsince₀ : sub₀.id ∈ s.refreshed := by
        change sub₀.id ∈ if n = s.changes then r.id :: s.refreshed else s.refreshed at hsince
        split at hsince
        · exact (List.mem_cons.mp hsince).resolve_left hid
        · exact hsince
      rcases h.last sub₀ hsub₀ hsince₀ with ⟨r', hr', hid', hsynced⟩ | hlast
      · refine .inl ⟨r', mem_set_of_ne hi hr' ?_, hid', hsynced⟩
        rintro rfl
        exact hid hid'.symm
      · exact .inr hlast

/-- **Step.** -/
theorem Manager.Sound.step {s' : Manager} {event : Event} (h : s.Sound) (hclear : Clear s event)
    (hstep : s.step event = some s') : s'.Sound := by
  cases event with
  | addGlobalTracker url =>
    cases hstep
    exact h.addGlobalTracker url
  | removeGlobalTracker url =>
    cases hstep
    exact h.removeGlobalTracker url
  | replace list =>
    cases hstep
    exact h.replace hclear.1 hclear.2
  | addSubscription id url enabled =>
    obtain ⟨hfresh, hstep⟩ := Option.ite_none_right_eq_some.mp hstep
    cases hstep
    exact h.addSubscription hfresh url enabled
  | removeSubscription id =>
    cases hstep
    exact h.removeSubscription hclear
  | toggleSubscription id =>
    cases hstep
    exact h.toggleSubscription id
  | unclaim id =>
    obtain ⟨-, hstep⟩ := Option.ite_none_right_eq_some.mp hstep
    cases hstep
    exact h.unclaim hclear
  | refresh id =>
    obtain ⟨-, hstep⟩ := Option.ite_none_right_eq_some.mp hstep
    cases hstep
    refine { h with
      written := fun r hr list n hphase => ?_
      last := fun sub hsub hsince => ?_ }
    · rcases List.mem_append.mp hr with hr | hr
      · exact h.written r hr list n hphase
      · obtain rfl := List.mem_singleton.mp hr
        cases hphase
    · exact (h.last sub hsub hsince).imp_left fun ⟨r, hr, hid, hsynced⟩ =>
        ⟨r, List.mem_append_left _ hr, hid, hsynced⟩
  | act i a =>
    obtain ⟨r, hi, hmap⟩ := Option.bind_eq_some_iff.mp hstep
    obtain ⟨o, hact, rfl⟩ := Option.map_eq_some_iff.mp hmap
    cases a with
    | fetched lines =>
      unfold Refresh.step at hact
      simp only at hact
      split at hact
      · rename_i hphase
        split at hact
        · cases hact
          exact h.ended hi hphase
        · rename_i hlist
          cases hact
          obtain ⟨henabled, halone, hleaves⟩ := hclear r hi hphase hlist
          exact h.synced hi hphase henabled halone hleaves
      · cases hact
    | finish =>
      unfold Refresh.step at hact
      simp only at hact
      split at hact
      · rename_i list n hphase
        cases hact
        exact h.finished hi hphase
      · cases hact

/-! ### The result -/

/-- The tables of the last session are in order: nothing is there twice, what the user has marked is
listed, and the other claims are of subscriptions that are enabled. -/
structure InOrder (globalTrackers : List String)
    (trackerSources : AList fun _ : String => List Source)
    (trackerSubscriptions : List Subscription) : Prop where
  nodup : globalTrackers.Nodup
  ids : (trackerSubscriptions.map Subscription.id).Nodup
  marked : ∀ e ∈ trackerSources.pairs, .manual ∈ e.2 → e.1 ∈ globalTrackers
  claims : ∀ e ∈ trackerSources.pairs, ∀ x ∈ e.2, x = .manual ∨
    ∃ sub ∈ trackerSubscriptions, x = .sub sub.id ∧ sub.enabled = true

theorem Manager.exists_of_mem_sources {url : String} {x : Source} (h : x ∈ s.sources url) :
    ∃ srcs, (url, srcs) ∈ s.trackerSources.pairs ∧ x ∈ srcs := by
  rw [Manager.sources] at h
  cases hlookup : s.trackerSources.lookup url with
  | none =>
    rw [hlookup] at h
    cases h
  | some srcs =>
    rw [hlookup] at h
    exact ⟨srcs, AList.mem_pairs.mpr hlookup, h⟩

theorem InOrder.sound {globalTrackers : List String}
    {trackerSources : AList fun _ : String => List Source}
    {trackerSubscriptions : List Subscription}
    (h : InOrder globalTrackers trackerSources trackerSubscriptions) :
    (restored globalTrackers trackerSources trackerSubscriptions).Sound := by
  let s := restored globalTrackers trackerSources trackerSubscriptions
  have hbyHand : ∀ url, url ∈ s.byHand ↔ url ∈ globalTrackers ∧ .manual ∈ s.sources url := by
    intro url
    rw [show s.byHand = globalTrackers.filter fun url => .manual ∈ s.sources url from rfl,
      List.mem_filter, decide_eq_true_iff]
  refine ⟨⟨h.nodup, h.ids, fun url hurl => (hbyHand url).mp hurl, fun url hmark => ?_,
    fun url hurl => ?_⟩, fun url id hclaim => ?_, (fun r hr => by cases hr),
    (fun sub _ hsince => by cases hsince)⟩
  · obtain ⟨srcs, hpair, hmem⟩ := Manager.exists_of_mem_sources hmark
    exact (hbyHand url).mpr ⟨h.marked _ hpair hmem, hmark⟩
  · by_cases hnone : s.sources url = []
    · exact .inl (List.mem_filter.mpr ⟨hurl, decide_eq_true hnone⟩)
    · exact .inr (List.exists_mem_of_ne_nil _ hnone)
  · obtain ⟨srcs, hpair, hmem⟩ := Manager.exists_of_mem_sources hclaim
    rcases h.claims _ hpair _ hmem with hmanual | ⟨sub, hsub, heq, henabled⟩
    · cases hmanual
    · exact .inl ⟨sub, hsub, (Source.sub.inj heq).symm, henabled⟩

/-- **Trackers stay in sync** in a run whose steps stay clear of each other, from tables that are in
order: no tracker is there twice, what the user has put there is there, and whenever no call is
between its locks and all subscriptions have been refreshed since the last other change, the others
are from their last lists. -/
theorem inSync_of_clear_run {globalTrackers : List String}
    {trackerSources : AList fun _ : String => List Source}
    {trackerSubscriptions : List Subscription}
    (h : InOrder globalTrackers trackerSources trackerSubscriptions) {es : List Event}
    (hclear : Along Manager.step Clear
      (restored globalTrackers trackerSources trackerSubscriptions) es) :
    Everywhere Manager.step Manager.InSync
      (restored globalTrackers trackerSources trackerSubscriptions) es :=
  everywhere_of_along (fun _ ht => Manager.Sound.inSync ht)
    (fun _ _ _ ht hP hstep => ht.step hP hstep) h.sound hclear

instance decidableAtRest (s : Manager) : Decidable s.AtRest :=
  inferInstanceAs (Decidable (_ ∧ _))

instance decidableAllRefreshed (s : Manager) : Decidable s.AllRefreshed :=
  inferInstanceAs (Decidable (∀ sub ∈ s.trackerSubscriptions, sub.enabled = true → _))

instance decidableInSync (s : Manager) : Decidable s.InSync :=
  inferInstanceAs (Decidable (_ ∧ _ ∧ (s.AtRest → s.AllRefreshed → _)))

instance decidableLeaves (s : Manager) (subId : String) (remote : List String) :
    Decidable (s.Leaves subId remote) :=
  inferInstanceAs (Decidable (∀ url ∈ s.globalTrackers, .sub subId ∈ s.sources url → url ∉ remote →
    (s.sources url).filter (fun x => x ≠ .sub subId) = [] → s.otherProvides subId url = false))

instance decidableEnabled (s : Manager) (id : String) : Decidable (s.Enabled id) :=
  inferInstanceAs (Decidable (∃ sub ∈ s.trackerSubscriptions, sub.id = id ∧ sub.enabled = true))

instance decidableClear (s : Manager) : (event : Event) → Decidable (Clear s event)
  | .replace list => inferInstanceAs (Decidable (list.Nodup ∧
      ∀ url ∈ list, url ∈ s.globalTrackers → .manual ∈ s.sources url))
  | .removeSubscription id | .unclaim id => inferInstanceAs (Decidable (s.Leaves id []))
  | .act i (.fetched lines) => inferInstanceAs (Decidable (∀ r ∈ s.refreshes[i]?,
      r.phase = .fetching → lines.elim [] parseTrackers ≠ [] → s.Enabled r.id ∧
        (∀ r' ∈ s.refreshes, r'.id = r.id → r'.phase.isSynced = false) ∧
          s.Leaves r.id (lines.elim [] parseTrackers)))
  | .act _ .finish | .addGlobalTracker _ | .removeGlobalTracker _ | .addSubscription _ _ _ |
    .toggleSubscription _ | .refresh _ => isTrue trivial

/-- The list is downloaded and both locks are taken. -/
def refreshed (i : Nat) (lines : List String) : List Event :=
  [.act i (.fetched (some lines)), .act i .finish]

/-- Two subscriptions share a tracker that the first one drops; the user adds one and disables the
second. -/
def shared : List Event :=
  [.addSubscription "1" "http://one" true, .addSubscription "2" "http://two" true, .refresh "1",
    .refresh "2"] ++ refreshed 0 ["udp://a", "udp://b"] ++
    refreshed 1 ["#", "udp://b", "udp://c"] ++ [.addGlobalTracker "udp://d", .refresh "1"] ++
    refreshed 2 ["udp://a"] ++ [.toggleSubscription "2", .unclaim "2", .refresh "1"] ++
    refreshed 3 ["udp://a", "udp://e"]

example : (run Manager.step (restored [] ∅ []) shared).map Manager.globalTrackers =
    some ["udp://a", "udp://d", "udp://e"] := by decide +kernel

theorem shared_inSync :
    ∃ s, run Manager.step (restored [] ∅ []) shared = some s ∧ s.InSync ∧ s.AtRest ∧
      s.AllRefreshed := by
  have hclear : Along Manager.step Clear (restored [] ∅ []) shared := by decide +kernel
  have hrest : (run Manager.step (restored [] ∅ []) shared).map
      (fun s => decide (s.AtRest ∧ s.AllRefreshed)) = some true := by decide +kernel
  obtain ⟨s, hrun, hall⟩ := Option.map_eq_some_iff.mp hrest
  have horder : InOrder [] ∅ [] :=
    ⟨List.nodup_nil, List.nodup_nil, (fun e he => by cases he), (fun e he => by cases he)⟩
  have hsync := inSync_of_clear_run horder hclear shared.length s
  rw [List.take_length] at hsync
  exact ⟨s, hrun, hsync hrun, of_decide_eq_true hall⟩

/-- The user lists a tracker twice. -/
def twice : List Event := [.replace ["udp://a", "udp://a"]]

/-- The user lists what a subscription has brought in, and the subscription drops it. -/
def listed : List Event :=
  [.addSubscription "1" "http://one" true, .refresh "1"] ++ refreshed 0 ["udp://a", "udp://b"] ++
    [.replace ["udp://a", "udp://b"], .refresh "1"] ++ refreshed 1 ["udp://b"]

/-- Two subscriptions share a tracker that the user removes; the first one brings it in again and
drops it, and then the second one does not have it any more. -/
def stranded : List Event :=
  [.addSubscription "1" "http://one" true, .addSubscription "2" "http://two" true, .refresh "1",
    .refresh "2"] ++ refreshed 0 ["udp://a"] ++ refreshed 1 ["udp://a"] ++
    [.removeGlobalTracker "udp://a", .refresh "1", .refresh "1", .refresh "2"] ++
      refreshed 2 ["udp://a"] ++ refreshed 3 ["udp://b"] ++ refreshed 4 ["udp://c"]

/-- A subscription is removed while its list is on its way. -/
def late : List Event :=
  [.addSubscription "1" "http://one" true, .refresh "1", .removeSubscription "1"] ++
    refreshed 0 ["udp://a"]

/-- The run of the events ends out of sync. -/
def EndsApart (es : List Event) : Prop :=
  ∃ s, run Manager.step (restored [] ∅ []) es = some s ∧ ¬ s.InSync

/-- **What is wrong**: four runs that end out of sync. -/
theorem outOfSync : EndsApart twice ∧ EndsApart listed ∧ EndsApart stranded ∧ EndsApart late := by
  have hend : ∀ es ∈ [twice, listed, stranded, late],
      (run Manager.step (restored [] ∅ []) es).map (fun s => decide s.InSync) = some false := by
    decide +kernel
  have hall : ∀ es ∈ [twice, listed, stranded, late], EndsApart es := by
    intro es hes
    obtain ⟨s, hrun, hnot⟩ := Option.map_eq_some_iff.mp (hend es hes)
    exact ⟨s, hrun, of_decide_eq_false hnot⟩
  simpa only [List.forall_mem_cons, List.not_mem_nil, false_implies, implies_true, and_true] using hall

end XferRust.Engine.Trackers
