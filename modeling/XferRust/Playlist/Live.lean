import XferRust.Lib.SortedMap
import XferRust.Playlist.Media

/-! # The state of a live recording

A live playlist is a window that slides over the segments of a stream.  The recorder keeps the
segments of all snapshots it has seen, by number, and splices them in the order of their numbers;
an initialisation segment is bound to the number of the segment behind it, or it hangs before
whatever is spliced next.  Times are in milliseconds; `stableUrl` is an address without what
changes from one snapshot to the next.
-/
namespace XferRust.Playlist

/-- `LiveItemState`. -/
inductive LiveItemState where
  /-- Not to be tried before `retryAt`. -/
  | queued (retryAt : Option Nat)
  | inflight
  /-- In its segment file as a whole. -/
  | done
  | failed
  deriving DecidableEq

structure LiveItem where
  seg : Segment
  state : LiveItemState
  attempts : Nat

namespace LiveItem

/-- `LiveItem::queued`. -/
def queued (seg : Segment) : LiveItem where
  seg := seg
  state := .queued none
  attempts := 0

def isQueued (it : LiveItem) : Bool :=
  match it.state with
  | .queued _ => true
  | _ => false

/-- What is not worth keeping when the window has slid over it. -/
def isStale (it : LiveItem) : Bool :=
  match it.state with
  | .queued _ => true
  | .failed => true
  | .inflight => false
  | .done => false

/-- `due`. -/
def isDue (it : LiveItem) (now : Nat) : Bool :=
  match it.state with
  | .queued (some t) => decide (t ≤ now)
  | .queued none => true
  | _ => false

/-- Neither queued nor in flight. -/
def isSettled (it : LiveItem) : Bool :=
  match it.state with
  | .done => true
  | .failed => true
  | .queued _ => false
  | .inflight => false

/-- An initialisation segment that is still queued is loaded from the newer address. -/
def refresh (seg : Segment) (it : LiveItem) : LiveItem :=
  if it.isQueued then { it with seg := { it.seg with url := seg.url, key := seg.key } } else it

end LiveItem

/-- `LiveKey`. -/
inductive LiveKey where
  | leadingMap
  | map (seq : Nat)
  | seg (seq : Nat)
  deriving DecidableEq

structure LiveState where
  /-- The number of the next segment to be spliced. -/
  headSeq : Nat
  winTail : Nat := 0
  streamEnd : Bool := false
  reloadStopped : Bool := false
  segs : SortedMap Nat LiveItem := .empty
  /-- By the number of the segment behind. -/
  maps : SortedMap Nat LiveItem := .empty
  leadingMap : Option LiveItem := none
  mapSeen : List String := []
  writtenMap : Option String := none
  splicedTotal : Nat := 0
  lastNewAt : Nat := 0
  lastOkReload : Nat := 0
  failStreak : Nat := 0
  goneStreak : Nat := 0

/-- `LIVE_SEG_MAX_ATTEMPTS`. -/
def liveSegMaxAttempts : Nat := 6

/-- `LIVE_GONE_LIMIT`. -/
def liveGoneLimit : Nat := 6

section
variable (stableUrl : String → String)

/-- `map_stable_key`. -/
def mapStableKey (seg : Segment) : String :=
  let url := stableUrl seg.url
  match seg.range with
  | some (o, l) => s!"{url}#{o}:{l}"
  | none => url

/-- The initialisation segments of a plan, each with the number it stands before; `init` with
none. -/
def PlaylistPlan.declarations (plan : PlaylistPlan) : List (Segment × Option Nat) :=
  plan.init.toList.map (fun seg => (seg, none)) ++
    (plan.segments.filter (·.isMap)).map fun seg => (seg, some seg.seq)

/-- The segments with media in them. -/
def PlaylistPlan.media (plan : PlaylistPlan) : List Segment :=
  plan.segments.filter fun seg => !seg.isMap

/-- The initialisation segment declared for a number: the nearest before the segment. -/
def declaredIn : Option Segment → List Segment → Nat → Option Segment
  | _, [], _ => none
  | current, seg :: segs, n =>
    if seg.isMap then declaredIn (some seg) segs n
    else if seg.seq = n then current
    else declaredIn current segs n

/-- The key of the initialisation segment that a plan declares for a number. -/
def PlaylistPlan.declared (plan : PlaylistPlan) (n : Nat) : Option String :=
  (declaredIn plan.init plan.segments n).map (mapStableKey stableUrl)

namespace LiveState

/-! ## A snapshot is taken in -/

/-- Segments that the window has slid over go, unless they are being loaded or are there. -/
def dropStale (s : LiveState) (winStart : Nat) : LiveState :=
  { s with
    segs := s.segs.keep fun n it => !(decide (s.headSeq ≤ n) && decide (n < winStart) && it.isStale) }

/-- The head moves over numbers that nothing is kept of, and over the initialisation segments
bound to them. -/
def advance : Nat → LiveState → LiveState
  | 0, s => s
  | room + 1, s =>
    if (s.segs.find? s.headSeq).isSome then s
    else advance room { s with maps := s.maps.erase s.headSeq, headSeq := s.headSeq + 1 }

/-- The first part of `apply`: the window starts at `winStart`. -/
def slide (s : LiveState) (winStart : Nat) : LiveState :=
  if s.headSeq < winStart then advance (winStart - s.headSeq) (s.dropStale winStart) else s

/-- The first of the bound initialisation segments with a key is refreshed. -/
def refreshMaps (s : LiveState) (seg : Segment) : LiveState :=
  match s.maps.entries.find? fun e => mapStableKey stableUrl e.2.seg = mapStableKey stableUrl seg with
  | some e => { s with maps := s.maps.adjust e.1 (LiveItem.refresh seg) }
  | none => s

/-- `live_consider_map` for an initialisation segment that was met before. -/
def refreshMap (s : LiveState) (seg : Segment) : LiveState :=
  match s.leadingMap with
  | some m =>
    if mapStableKey stableUrl m.seg = mapStableKey stableUrl seg then
      { s with leadingMap := some (m.refresh seg) }
    else s.refreshMaps stableUrl seg
  | none => s.refreshMaps stableUrl seg

/-- An initialisation segment hangs before what is spliced next, unless another one does. -/
def hangMap (s : LiveState) (seg : Segment) : LiveState :=
  match s.leadingMap with
  | some _ => s
  | none => { s with leadingMap := some (.queued { seg with isMap := true }) }

/-- `live_consider_map` for one that was not: it is bound to a number behind the head, or it
hangs. -/
def placeMap (s : LiveState) (seg : Segment) (bound : Option Nat) : LiveState :=
  match bound with
  | some seq =>
    if s.headSeq < seq then
      { s with maps := s.maps.insert seq (.queued { seg with seq, isMap := true }) }
    else s.hangMap seg
  | none => s.hangMap seg

/-- `live_consider_map`, with the count of what was added. -/
def considerMap (s : LiveState × Nat) (d : Segment × Option Nat) : LiveState × Nat :=
  let key := mapStableKey stableUrl d.1
  if key ∈ s.1.mapSeen then (s.1.refreshMap stableUrl d.1, s.2)
  else ({ s.1 with mapSeen := key :: s.1.mapSeen }.placeMap d.1 d.2, s.2 + 1)

/-- A media segment of a snapshot whose number is in the queue. -/
def refreshSeg (s : LiveState) (seg : Segment) (it : LiveItem) : LiveState :=
  match it.state with
  | .queued _ => { s with segs := s.segs.adjust seg.seq fun it => { it with seg } }
  | .failed =>
    -- a new signature is a new ticket
    if stableUrl it.seg.url ≠ stableUrl seg.url then
      { s with segs := s.segs.adjust seg.seq fun _ => .queued seg }
    else s
  | .inflight => s
  | .done => s

/-- A segment of a snapshot, with the count of what was added. -/
def bring (s : LiveState × Nat) (seg : Segment) : LiveState × Nat :=
  if seg.isMap ∨ seg.seq < s.1.headSeq then s
  else
    match s.1.segs.find? seg.seq with
    | some it => (s.1.refreshSeg stableUrl seg it, s.2)
    | none => ({ s.1 with segs := s.1.segs.insert seg.seq (.queued seg) }, s.2 + 1)

/-- The window of a snapshot, whose first and last segments are given. -/
def window (s : LiveState) (first last : Segment) : LiveState :=
  { s with winTail := max s.winTail last.seq }.slide first.seq

/-- `apply`, behind the return for a snapshot without segments. -/
def applyWindow (s : LiveState) (plan : PlaylistPlan) (first last : Segment) (now : Nat) :
    LiveState :=
  let s := (plan.declarations.foldl (considerMap stableUrl) (s.window first last, 0))
  let s := plan.segments.foldl (bring stableUrl) s
  let added := s.2
  let s := if plan.live then s.1 else { s.1 with streamEnd := true, reloadStopped := true }
  if 0 < added then { s with lastNewAt := now } else s

/-- `apply`. -/
def apply (s : LiveState) (plan : PlaylistPlan) (now : Nat) : LiveState :=
  match plan.segments.head?, plan.segments.getLast? with
  | some first, some last => s.applyWindow stableUrl plan first last now
  | _, _ => s

/-! ## Loading and splicing -/

/-- The item of a key is changed, if it is there (`live_item_mut`). -/
def onItem (s : LiveState) (key : LiveKey) (f : LiveItem → LiveItem) : LiveState :=
  match key with
  | .leadingMap => { s with leadingMap := s.leadingMap.map f }
  | .map seq => { s with maps := s.maps.adjust seq f }
  | .seg seq => { s with segs := s.segs.adjust seq f }

/-- The state without the item of a key. -/
def dropItem (s : LiveState) : LiveKey → LiveState
  | .leadingMap => { s with leadingMap := none }
  | .map seq => { s with maps := s.maps.erase seq }
  | .seg seq => { s with segs := s.segs.erase seq }

/-- The key of what is loaded next. -/
def nextDue (s : LiveState) (now : Nat) : Option LiveKey :=
  if (s.leadingMap.any fun m => m.isDue now) then some .leadingMap
  else
    match s.maps.entries.find? fun e => e.2.isDue now with
    | some e => some (.map e.1)
    | none => (s.segs.entries.find? fun e => e.2.isDue now).map fun e => .seg e.1

/-- `take_for_dispatch`. -/
def takeForDispatch (s : LiveState) (now : Nat) : Option (LiveKey × LiveState) :=
  (s.nextDue now).map fun key => (key, s.onItem key fun it => { it with state := .inflight })

/-- The part of `splice_one` behind a hanging initialisation segment. -/
def spliceBound (s : LiveState) : Option (LiveKey × LiveItem × LiveState) :=
  match s.maps.find? s.headSeq with
  | some m =>
    if m.state = .done then
      some (.map s.headSeq, m,
        { s with
          maps := s.maps.erase s.headSeq, writtenMap := some (mapStableKey stableUrl m.seg),
          splicedTotal := s.splicedTotal + 1 })
    else none
  | none =>
    match s.segs.find? s.headSeq with
    | some it =>
      if it.state = .done then
        some (.seg s.headSeq, it,
          { s with
            segs := s.segs.erase s.headSeq, headSeq := s.headSeq + 1,
            splicedTotal := s.splicedTotal + 1 })
      else none
    | none => none

/-- `splice_one`: what is spliced, and the state behind it. -/
def spliceOne (s : LiveState) : Option (LiveKey × LiveItem × LiveState) :=
  match s.leadingMap with
  | some m =>
    if m.state = .done then
      some (.leadingMap, m,
        { s with
          leadingMap := none, writtenMap := some (mapStableKey stableUrl m.seg),
          splicedTotal := s.splicedTotal + 1 })
    else none
  | none => s.spliceBound stableUrl

def drained (s : LiveState) : Bool :=
  s.leadingMap.isNone && decide (s.winTail < s.headSeq) && (s.segs.find? s.headSeq).isNone &&
    (s.maps.find? s.headSeq).isNone

def blockedFailed (s : LiveState) : Bool :=
  s.leadingMap.any (·.state = .failed) || (s.maps.find? s.headSeq).any (·.state = .failed) ||
    (s.segs.find? s.headSeq).any (·.state = .failed)

/-- What becomes of the item of a key when its load has failed. -/
def loadFailed (now : Nat) (it : LiveItem) : LiveItem :=
  let attempts := it.attempts + 1
  if liveSegMaxAttempts ≤ attempts then { it with attempts, state := .failed }
  else { it with attempts, state := .queued (some (now + (1 + 2 * attempts) * 1000)) }

/-- The snapshot could not be loaded: not found, or for another reason. -/
def reloadFailed (s : LiveState) (gone : Bool) : LiveState :=
  if gone then
    let s := { s with goneStreak := s.goneStreak + 1 }
    if liveGoneLimit ≤ s.goneStreak then { s with streamEnd := true, reloadStopped := true } else s
  else { s with failStreak := s.failStreak + 1 }

/-- A snapshot was loaded (`record_playlist`): one with parts only is passed over. -/
def reloaded (s : LiveState) (plan : PlaylistPlan) (now : Nat) : LiveState :=
  let s := { s with failStreak := 0, goneStreak := 0, lastOkReload := now }
  if plan.partsOnly then s else s.apply stableUrl plan now

end LiveState
end

namespace LiveState

/-! ## The parts of `apply` -/

section
variable (s : LiveState)

/-- Something of number `n` outlives a window that starts at `w`. -/
def survives (w n : Nat) : Bool := (s.segs.find? n).any fun it => decide (w ≤ n) || !it.isStale

/-- The head does not go past `n` when the window starts at `w`. -/
def Stays (w n : Nat) : Prop := w ≤ n ∨ ∃ m ≤ n, s.headSeq ≤ m ∧ s.survives w m = true

instance (w n : Nat) : Decidable (s.Stays w n) :=
  inferInstanceAs (Decidable (w ≤ n ∨ ∃ m ≤ n, s.headSeq ≤ m ∧ s.survives w m = true))

end

/-- What is declared for the numbers in the queue when a snapshot is taken in: for a number that it
brings, what the snapshot says. -/
def declareNew (stableUrl : String → String) (s : LiveState) (plan : PlaylistPlan)
    (declared : Nat → Option String) : Nat → Option String :=
  match plan.segments.head? with
  | some first =>
    fun n => if s.survives first.seq n then declared n else plan.declared stableUrl n
  | none => declared

theorem find?_dropStale {s : LiveState} {w n : Nat} (hn : s.headSeq ≤ n) :
    (s.dropStale w).segs.find? n = (s.segs.find? n).filter fun it => decide (w ≤ n) || !it.isStale := by
  rw [dropStale, SortedMap.find?_keep]
  by_cases hw : w ≤ n
  · simp [hn, hw, Nat.not_lt.mpr hw]
  · simp [hn, hw, Nat.not_le.mp hw]

theorem isSome_find?_dropStale {s : LiveState} {w n : Nat} (hn : s.headSeq ≤ n) :
    ((s.dropStale w).segs.find? n).isSome = s.survives w n := by
  rw [find?_dropStale hn, survives]
  cases s.segs.find? n with
  | none => rfl
  | some it => cases h : decide (w ≤ n) || !it.isStale <;> simp [h]

/-- The head stops at the first number that something is kept of. -/
theorem advance_spec (room : Nat) (s : LiveState) :
    ∃ h maps, advance room s = { s with headSeq := h, maps := maps } ∧
      s.headSeq ≤ h ∧ h ≤ s.headSeq + room ∧
      (∀ n, s.headSeq ≤ n → n < h → s.segs.find? n = none) ∧
      (h = s.headSeq + room ∨ (s.segs.find? h).isSome = true) ∧
      ∀ n, maps.find? n = if s.headSeq ≤ n ∧ n < h then none else s.maps.find? n := by
  induction room generalizing s with
  | zero =>
    refine ⟨s.headSeq, s.maps, rfl, Nat.le_refl _, Nat.le_refl _, fun n hlo hhi => ?_, .inl rfl,
      fun n => ?_⟩
    · exact absurd hhi (Nat.not_lt.mpr hlo)
    · rw [if_neg fun h => absurd h.2 (Nat.not_lt.mpr h.1)]
  | succ room ih =>
    rw [advance]
    by_cases hsome : (s.segs.find? s.headSeq).isSome = true
    · rw [if_pos hsome]
      refine ⟨s.headSeq, s.maps, rfl, Nat.le_refl _, Nat.le_add_right _ _, fun n hlo hhi => ?_,
        .inr hsome, fun n => ?_⟩
      · exact absurd hhi (Nat.not_lt.mpr hlo)
      · rw [if_neg fun h => absurd h.2 (Nat.not_lt.mpr h.1)]
    · rw [if_neg hsome]
      obtain ⟨h, maps, heq, hlo, hhi, hnone, hstop, hmaps⟩ :=
        ih { s with maps := s.maps.erase s.headSeq, headSeq := s.headSeq + 1 }
      dsimp only at heq hlo hhi hnone hstop hmaps
      refine ⟨h, maps, heq, by omega, by omega, fun n hn hlt => ?_, ?_, fun n => ?_⟩
      · by_cases hhead : n = s.headSeq
        · rw [hhead, ← Option.not_isSome_iff_eq_none]
          exact hsome
        · exact hnone n (by omega) hlt
      · exact hstop.imp_left fun h => by omega
      · rw [hmaps, SortedMap.find?_erase]
        by_cases hhead : n = s.headSeq
        · rw [if_neg (by omega), if_pos hhead, if_pos ⟨by omega, by omega⟩]
        · by_cases hn : s.headSeq ≤ n ∧ n < h
          · rw [if_pos ⟨by omega, hn.2⟩, if_pos hn]
          · rw [if_neg (by omega), if_neg hhead, if_neg hn]

/-- **What the sliding of the window does**: segments that are neither there nor being loaded go,
the head moves over numbers that nothing is kept of, and over the initialisation segments bound to
them. -/
theorem slide_spec (s : LiveState) (w : Nat) :
    ∃ h segs maps, s.slide w = { s with headSeq := h, segs := segs, maps := maps } ∧
      s.headSeq ≤ h ∧ (∀ n, s.headSeq ≤ n → (h ≤ n ↔ s.Stays w n)) ∧
      (∀ n, s.headSeq ≤ n →
        segs.find? n = (s.segs.find? n).filter fun it => decide (w ≤ n) || !it.isStale) ∧
      (∀ n < s.headSeq, segs.find? n = s.segs.find? n) ∧
      ∀ n, maps.find? n = if s.headSeq ≤ n ∧ n < h then none else s.maps.find? n := by
  rw [slide]
  by_cases hw : s.headSeq < w
  · rw [if_pos hw]
    obtain ⟨h, maps, heq, hlo, hhi, hnone, hstop, hmaps⟩ :=
      advance_spec (w - s.headSeq) (s.dropStale w)
    have hhead : (s.dropStale w).headSeq = s.headSeq := rfl
    rw [hhead] at hlo hhi hnone hstop hmaps
    refine ⟨h, (s.dropStale w).segs, maps, heq, hlo, fun n hn => ?_, fun n hn => find?_dropStale hn,
      fun n hn => ?_, hmaps⟩
    · constructor
      · intro hle
        rcases hstop with hend | hsome
        · exact .inl (by omega)
        · exact .inr ⟨h, hle, hlo, by rw [← isSome_find?_dropStale hlo]; exact hsome⟩
      · rintro (hwn | ⟨m, hmn, hm, hsurv⟩)
        · omega
        · refine Nat.le_trans (Nat.not_lt.mp fun hlt => ?_) hmn
          rw [← isSome_find?_dropStale hm, hnone m hm hlt] at hsurv
          cases hsurv
    · rw [dropStale, SortedMap.find?_keep]
      cases s.segs.find? n with
      | none => rfl
      | some it => simp [Nat.not_le.mpr hn]
  · rw [if_neg hw]
    refine ⟨s.headSeq, s.segs, s.maps, rfl, Nat.le_refl _, fun n hn => ?_, fun n hn => ?_,
      fun n _ => rfl, fun n => ?_⟩
    · exact iff_of_true hn (.inl (by omega))
    · have hle : w ≤ n := by omega
      cases s.segs.find? n with
      | none => rfl
      | some it => rw [Option.filter_some, if_pos (by simp [hle])]
    · rw [if_neg (by omega)]

section
variable (stableUrl : String → String)

theorem refreshMap_frame (s : LiveState) (seg : Segment) :
    ∃ maps leading, s.refreshMap stableUrl seg = { s with maps := maps, leadingMap := leading } := by
  have hmaps : ∃ maps, s.refreshMaps stableUrl seg = { s with maps := maps } := by
    rw [refreshMaps]
    split
    · exact ⟨_, rfl⟩
    · exact ⟨s.maps, rfl⟩
  rw [refreshMap]
  split
  · split
    · exact ⟨s.maps, _, rfl⟩
    · obtain ⟨maps, h⟩ := hmaps
      exact ⟨maps, s.leadingMap, h⟩
  · obtain ⟨maps, h⟩ := hmaps
    exact ⟨maps, s.leadingMap, h⟩

theorem placeMap_frame (s : LiveState) (seg : Segment) (bound : Option Nat) :
    ∃ maps leading, s.placeMap seg bound = { s with maps := maps, leadingMap := leading } := by
  have hhang : ∃ leading, s.hangMap seg = { s with leadingMap := leading } := by
    rw [hangMap]
    split
    · exact ⟨s.leadingMap, rfl⟩
    · exact ⟨_, rfl⟩
  obtain ⟨leading, hleading⟩ := hhang
  cases bound with
  | none => exact ⟨s.maps, leading, hleading⟩
  | some seq =>
    rw [placeMap]
    split
    · exact ⟨_, s.leadingMap, rfl⟩
    · exact ⟨s.maps, leading, hleading⟩

/-- The initialisation segments of a snapshot change the queue of these only. -/
theorem considerMaps_frame (ds : List (Segment × Option Nat)) (s : LiveState × Nat) :
    ∃ maps leading seen, (ds.foldl (considerMap stableUrl) s).1 =
      { s.1 with maps := maps, leadingMap := leading, mapSeen := seen } := by
  induction ds generalizing s with
  | nil => exact ⟨s.1.maps, s.1.leadingMap, s.1.mapSeen, rfl⟩
  | cons d ds ih =>
    rw [List.foldl_cons]
    obtain ⟨maps, leading, seen, h⟩ := ih (considerMap stableUrl s d)
    have hstep : ∃ maps leading seen, (considerMap stableUrl s d).1 =
        { s.1 with maps := maps, leadingMap := leading, mapSeen := seen } := by
      rw [considerMap]
      dsimp only
      split
      · obtain ⟨maps, leading, h⟩ := refreshMap_frame stableUrl s.1 d.1
        exact ⟨maps, leading, s.1.mapSeen, h⟩
      · obtain ⟨maps, leading, h⟩ := placeMap_frame
          { s.1 with mapSeen := mapStableKey stableUrl d.1 :: s.1.mapSeen } d.1 d.2
        exact ⟨maps, leading, _, h⟩
    obtain ⟨maps', leading', seen', h'⟩ := hstep
    exact ⟨maps, leading, seen, by rw [h, h']⟩

/-- One segment of a snapshot: its number is in the queue then, unless it is behind the head. -/
theorem bring_spec (s : LiveState × Nat) (seg : Segment) :
    ∃ segs, (bring stableUrl s seg).1 = { s.1 with segs := segs } ∧
      ∀ n, (segs.find? n).isSome = true ↔ (s.1.segs.find? n).isSome = true ∨
        seg.isMap = false ∧ s.1.headSeq ≤ n ∧ seg.seq = n := by
  rw [bring]
  split
  · rename_i hskip
    refine ⟨s.1.segs, rfl, fun n => ?_⟩
    constructor
    · exact .inl
    · rintro (h | ⟨hmap, hhead, rfl⟩)
      · exact h
      · rcases hskip with h | h
        · rw [h] at hmap
          cases hmap
        · omega
  · rename_i hskip
    obtain ⟨hmap, hhead⟩ := not_or.mp hskip
    rw [Bool.not_eq_true] at hmap
    have hhead' : s.1.headSeq ≤ seg.seq := Nat.not_lt.mp hhead
    split
    · rename_i it hit
      have hkeys : ∀ f n, (s.1.segs.adjust seg.seq f |>.find? n).isSome = true ↔
          (s.1.segs.find? n).isSome = true ∨ seg.isMap = false ∧ s.1.headSeq ≤ n ∧ seg.seq = n := by
        intro f n
        rw [SortedMap.find?_adjust]
        split
        · rename_i hn
          rw [hn, hit]
          simp
        · rename_i hn
          simp [Ne.symm hn]
      have hsame : ∀ n, (s.1.segs.find? n).isSome = true ↔
          (s.1.segs.find? n).isSome = true ∨ seg.isMap = false ∧ s.1.headSeq ≤ n ∧ seg.seq = n := by
        intro n
        refine ⟨.inl, ?_⟩
        rintro (h | ⟨-, -, rfl⟩)
        · exact h
        · rw [hit]
          rfl
      dsimp only
      rw [refreshSeg]
      split
      · exact ⟨_, rfl, hkeys _⟩
      · split
        · exact ⟨_, rfl, hkeys _⟩
        · exact ⟨s.1.segs, rfl, hsame⟩
      · exact ⟨s.1.segs, rfl, hsame⟩
      · exact ⟨s.1.segs, rfl, hsame⟩
    · rename_i hnone
      refine ⟨_, rfl, fun n => ?_⟩
      rw [SortedMap.find?_insert]
      by_cases hn : seg.seq = n
      · rw [if_pos hn]
        exact iff_of_true rfl (.inr ⟨hmap, hn ▸ hhead', hn⟩)
      · rw [if_neg hn]
        simp [hn]

theorem brings_spec (segs : List Segment) (s : LiveState × Nat) :
    ∃ queue, (segs.foldl (bring stableUrl) s).1 = { s.1 with segs := queue } ∧
      ∀ n, (queue.find? n).isSome = true ↔ (s.1.segs.find? n).isSome = true ∨
        s.1.headSeq ≤ n ∧ ∃ seg ∈ segs, seg.isMap = false ∧ seg.seq = n := by
  induction segs generalizing s with
  | nil => exact ⟨s.1.segs, rfl, by simp⟩
  | cons seg segs ih =>
    rw [List.foldl_cons]
    obtain ⟨first, hfirst, hone⟩ := bring_spec stableUrl s seg
    obtain ⟨queue, hqueue, hall⟩ := ih (bring stableUrl s seg)
    rw [hfirst] at hqueue hall
    refine ⟨queue, hqueue, fun n => ?_⟩
    rw [hall, hone]
    dsimp only
    constructor
    · rintro ((h | ⟨hmap, hhead, hn⟩) | ⟨hhead, seg', hmem, h⟩)
      · exact .inl h
      · exact .inr ⟨hhead, seg, List.mem_cons_self, hmap, hn⟩
      · exact .inr ⟨hhead, seg', List.mem_cons_of_mem _ hmem, h⟩
    · rintro (h | ⟨hhead, seg', hmem, hmap, hn⟩)
      · exact .inl (.inl h)
      · rcases List.mem_cons.mp hmem with rfl | hmem
        · exact .inl (.inr ⟨hmap, hhead, hn⟩)
        · exact .inr ⟨hhead, seg', hmem, hmap, hn⟩

/-- Behind the declarations of a snapshot only the queue of segments changes, and what is known of
the end of the stream. -/
theorem applyWindow_frame (s : LiveState) (plan : PlaylistPlan) (first last : Segment)
    (now : Nat) :
    ∃ segs streamEnd reloadStopped lastNewAt, s.applyWindow stableUrl plan first last now =
      { (plan.declarations.foldl (considerMap stableUrl) (s.window first last, 0)).1 with
        segs := segs, streamEnd := streamEnd, reloadStopped := reloadStopped,
        lastNewAt := lastNewAt } := by
  obtain ⟨segs, hsegs, -⟩ := brings_spec stableUrl plan.segments
    (plan.declarations.foldl (considerMap stableUrl) (s.window first last, 0))
  rw [applyWindow]
  dsimp only
  rw [hsegs]
  cases plan.live with
  | true =>
    rw [if_pos rfl]
    split
    · exact ⟨segs, _, _, now, rfl⟩
    · exact ⟨segs, _, _, _, rfl⟩
  | false =>
    rw [if_neg Bool.false_ne_true]
    split
    · exact ⟨segs, true, true, now, rfl⟩
    · exact ⟨segs, true, true, _, rfl⟩

/-- What `apply` does to the head and to the numbers in the queue. -/
structure Applied (s : LiveState) (plan : PlaylistPlan) (first last : Segment) (s' : LiveState) :
    Prop where
  head_le : s.headSeq ≤ s'.headSeq
  stays : ∀ n, s.headSeq ≤ n → (s'.headSeq ≤ n ↔ s.Stays first.seq n)
  winTail : s'.winTail = max s.winTail last.seq
  streamEnd : s'.streamEnd = (s.streamEnd || !plan.live)
  reloadStopped : s'.reloadStopped = (s.reloadStopped || !plan.live)
  writtenMap : s'.writtenMap = s.writtenMap
  splicedTotal : s'.splicedTotal = s.splicedTotal
  goneStreak : s'.goneStreak = s.goneStreak
  ahead : ∀ n, s.headSeq ≤ n → ((s'.segs.find? n).isSome = true ↔
    s.survives first.seq n = true ∨ s'.headSeq ≤ n ∧ ∃ seg ∈ plan.media, seg.seq = n)
  behind : ∀ n < s.headSeq, ((s'.segs.find? n).isSome = true ↔ (s.segs.find? n).isSome = true)

theorem mem_media {plan : PlaylistPlan} {seg : Segment} :
    seg ∈ plan.media ↔ seg ∈ plan.segments ∧ seg.isMap = false := by
  rw [PlaylistPlan.media, List.mem_filter, Bool.not_eq_true']

theorem applyWindow_applied (s : LiveState) (plan : PlaylistPlan) (first last : Segment)
    (now : Nat) : Applied s plan first last (s.applyWindow stableUrl plan first last now) := by
  obtain ⟨h, slid, bound, hslide, hlo, hstays, hahead, hbehind, -⟩ :=
    slide_spec { s with winTail := max s.winTail last.seq } first.seq
  obtain ⟨maps, leading, seen, hmaps⟩ :=
    considerMaps_frame stableUrl plan.declarations (s.window first last, 0)
  obtain ⟨segs, hsegs, hkeys⟩ := brings_spec stableUrl plan.segments
    (plan.declarations.foldl (considerMap stableUrl) (s.window first last, 0))
  rw [hmaps] at hsegs hkeys
  generalize hres : plan.segments.foldl (bring stableUrl)
    (plan.declarations.foldl (considerMap stableUrl) (s.window first last, 0)) = res at hsegs
  rw [window, hslide] at hsegs hkeys
  dsimp only at hlo hstays hahead hbehind hkeys hsegs
  have hend : ∃ last', s.applyWindow stableUrl plan first last now =
      { s with
        headSeq := h, winTail := max s.winTail last.seq, segs := segs, maps := maps,
        leadingMap := leading, mapSeen := seen, streamEnd := s.streamEnd || !plan.live,
        reloadStopped := s.reloadStopped || !plan.live, lastNewAt := last' } := by
    rw [applyWindow]
    dsimp only
    rw [hres, hsegs]
    cases plan.live with
    | true =>
      simp only [if_true, Bool.not_true, Bool.or_false]
      split
      · exact ⟨now, rfl⟩
      · exact ⟨s.lastNewAt, rfl⟩
    | false =>
      simp only [Bool.false_eq_true, if_false, Bool.not_false, Bool.or_true]
      split
      · exact ⟨now, rfl⟩
      · exact ⟨s.lastNewAt, rfl⟩
  obtain ⟨last', heq⟩ := hend
  rw [heq]
  refine ⟨hlo, hstays, rfl, rfl, rfl, rfl, rfl, rfl, fun n hn => ?_, fun n hn => ?_⟩
  · rw [hkeys, hahead n hn]
    have hsurv : ((s.segs.find? n).filter fun it => decide (first.seq ≤ n) || !it.isStale).isSome =
        s.survives first.seq n := by
      rw [survives]
      cases s.segs.find? n with
      | none => rfl
      | some it => cases hkeep : decide (first.seq ≤ n) || !it.isStale <;> simp [hkeep]
    rw [hsurv]
    refine or_congr_right (and_congr_right fun _ => exists_congr fun seg => ?_)
    rw [mem_media, and_assoc]
  · rw [hkeys, hbehind n hn]
    exact or_iff_left fun h' => by omega

/-- A snapshot without segments changes nothing, and any other is taken in. -/
theorem apply_cases (s : LiveState) (plan : PlaylistPlan) (now : Nat) :
    (plan.segments = [] ∧ s.apply stableUrl plan now = s) ∨
      ∃ first last, plan.segments.head? = some first ∧ plan.segments.getLast? = some last ∧
        Applied s plan first last (s.apply stableUrl plan now) := by
  cases hsegs : plan.segments with
  | nil => exact .inl ⟨rfl, by rw [apply, hsegs]; rfl⟩
  | cons first rest =>
    have hlast : (first :: rest).getLast? = some ((first :: rest).getLast (List.cons_ne_nil _ _)) :=
      List.getLast?_eq_some_getLast (List.cons_ne_nil _ _)
    refine .inr ⟨first, _, rfl, hlast, ?_⟩
    rw [apply, hsegs, List.head?_cons, hlast]
    exact applyWindow_applied stableUrl s plan first _ now

/-! ## Splicing -/

/-- **What `splice_one` splices**: what hangs, else what is bound to the head, else the segment at
the head. -/
theorem spliceOne_cases {s s' : LiveState} {key : LiveKey} {it : LiveItem}
    (h : s.spliceOne stableUrl = some (key, it, s')) :
    it.state = .done ∧
      ((key = .leadingMap ∧ s.leadingMap = some it ∧
          s' = { s with
            leadingMap := none, writtenMap := some (mapStableKey stableUrl it.seg),
            splicedTotal := s.splicedTotal + 1 }) ∨
        (key = .map s.headSeq ∧ s.leadingMap = none ∧ s.maps.find? s.headSeq = some it ∧
          s' = { s with
            maps := s.maps.erase s.headSeq, writtenMap := some (mapStableKey stableUrl it.seg),
            splicedTotal := s.splicedTotal + 1 }) ∨
        (key = .seg s.headSeq ∧ s.leadingMap = none ∧ s.maps.find? s.headSeq = none ∧
          s.segs.find? s.headSeq = some it ∧
          s' = { s with
            segs := s.segs.erase s.headSeq, headSeq := s.headSeq + 1,
            splicedTotal := s.splicedTotal + 1 })) := by
  rw [spliceOne] at h
  cases hlead : s.leadingMap with
  | some m =>
    rw [hlead] at h
    dsimp only at h
    split at h
    · rename_i hdone
      obtain ⟨rfl, rfl, rfl⟩ := Option.some.inj h
      exact ⟨hdone, .inl ⟨rfl, rfl, rfl⟩⟩
    · cases h
  | none =>
    rw [hlead] at h
    dsimp only at h
    rw [spliceBound] at h
    cases hmap : s.maps.find? s.headSeq with
    | some m =>
      rw [hmap] at h
      dsimp only at h
      split at h
      · rename_i hdone
        obtain ⟨rfl, rfl, rfl⟩ := Option.some.inj h
        exact ⟨hdone, .inr (.inl ⟨rfl, rfl, rfl, by rw [hlead]⟩)⟩
      · cases h
    | none =>
      rw [hmap] at h
      dsimp only at h
      cases hseg : s.segs.find? s.headSeq with
      | some m =>
        rw [hseg] at h
        dsimp only at h
        split at h
        · rename_i hdone
          obtain ⟨rfl, rfl, rfl⟩ := Option.some.inj h
          exact ⟨hdone, .inr (.inr ⟨rfl, rfl, rfl, rfl, by rw [hlead]⟩)⟩
        · cases h
      | none =>
        rw [hseg] at h
        cases h

/-- When nothing can be spliced, something at the head is not there, or nothing is. -/
theorem spliceOne_none {s : LiveState} (h : s.spliceOne stableUrl = none) :
    (∃ m, s.leadingMap = some m ∧ m.state ≠ .done) ∨
      s.leadingMap = none ∧
        ((∃ m, s.maps.find? s.headSeq = some m ∧ m.state ≠ .done) ∨
          s.maps.find? s.headSeq = none ∧
            ((∃ it, s.segs.find? s.headSeq = some it ∧ it.state ≠ .done) ∨
              s.segs.find? s.headSeq = none)) := by
  rw [spliceOne] at h
  cases hlead : s.leadingMap with
  | some m =>
    rw [hlead] at h
    dsimp only at h
    refine .inl ⟨m, rfl, fun hdone => ?_⟩
    rw [if_pos hdone] at h
    cases h
  | none =>
    rw [hlead] at h
    dsimp only at h
    rw [spliceBound] at h
    refine .inr ⟨rfl, ?_⟩
    cases hmap : s.maps.find? s.headSeq with
    | some m =>
      rw [hmap] at h
      dsimp only at h
      refine .inl ⟨m, rfl, fun hdone => ?_⟩
      rw [if_pos hdone] at h
      cases h
    | none =>
      rw [hmap] at h
      dsimp only at h
      refine .inr ⟨rfl, ?_⟩
      cases hseg : s.segs.find? s.headSeq with
      | some it =>
        rw [hseg] at h
        dsimp only at h
        refine .inl ⟨it, rfl, fun hdone => ?_⟩
        rw [if_pos hdone] at h
        cases h
      | none => exact .inr rfl

end

end LiveState

end XferRust.Playlist
