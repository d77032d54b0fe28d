import XferRust.Playlist.LiveEnd
import XferRust.Playlist.LiveOrder

/-! # Initialisation segments in a live recording

The initialisation segments that are not in the product yet stand in a line: those bound to
numbers, each before the segment of its number; before all of them the one that hangs; and before
that the last one written.  A snapshot adds to the line what it declares, each address only once
in a recording, and the sliding of its window takes away what is bound to the numbers that the
head goes past.  The segments of the snapshot are right when the nearest before each of them in
that line is the one that the snapshot declares for it.
-/
namespace XferRust.Playlist

open StepRun

/-! ## The line -/

/-- The nearest at or below a number, and not below `head`. -/
def nearest (bound : Nat → Option String) (head : Nat) : Nat → Option String
  | 0 => if head = 0 then bound 0 else none
  | n + 1 => if head ≤ n + 1 then (bound (n + 1)).or (nearest bound head n) else none

section Nearest
variable {bound bound' : Nat → Option String} {head : Nat}

theorem nearest_congr {n : Nat} (h : ∀ m, head ≤ m → m ≤ n → bound m = bound' m) :
    nearest bound head n = nearest bound' head n := by
  induction n with
  | zero =>
    rw [nearest, nearest]
    split
    · rename_i h0
      exact h 0 (Nat.le_of_eq h0) (Nat.le_refl 0)
    · rfl
  | succ n ih =>
    rw [nearest, nearest]
    split
    · rename_i hle
      rw [h (n + 1) hle (Nat.le_refl _), ih fun m hm hn => h m hm (Nat.le_succ_of_le hn)]
    · rfl

theorem nearest_of_lt {n : Nat} (hn : n < head) : nearest bound head n = none := by
  cases n with
  | zero => rw [nearest, if_neg (Nat.ne_of_gt hn)]
  | succ n => rw [nearest, if_neg (Nat.not_le.mpr hn)]

theorem nearest_head (n : Nat) (h : bound n = none) : nearest bound n n = none := by
  cases n with
  | zero => rw [nearest, if_pos rfl, h]
  | succ n => rw [nearest, if_pos (Nat.le_refl _), h, nearest_of_lt (Nat.lt_succ_self n)]; rfl

/-- What is below does not matter when nothing is bound there. -/
theorem nearest_raise {head' n : Nat} (hle : head ≤ head')
    (h : ∀ m, head ≤ m → m < head' → bound m = none) :
    nearest bound head n = nearest bound head' n := by
  induction n with
  | zero =>
    rw [nearest, nearest]
    by_cases h' : head' = 0
    · rw [if_pos h', if_pos (by omega)]
    · rw [if_neg h']
      split
      · rename_i h0
        exact h 0 (Nat.le_of_eq h0) (Nat.pos_of_ne_zero h')
      · rfl
  | succ n ih =>
    rw [nearest, nearest, ih]
    by_cases h' : head' ≤ n + 1
    · rw [if_pos h', if_pos (Nat.le_trans hle h')]
    · rw [if_neg h', nearest_of_lt (Nat.lt_of_succ_lt (Nat.not_le.mp h'))]
      split
      · rename_i hn
        rw [h (n + 1) hn (Nat.not_le.mp h')]
        rfl
      · rfl

/-- What is bound at the bottom counts where nothing is bound above. -/
theorem nearest_bottom {n : Nat} (hn : head ≤ n) :
    nearest bound head n = (nearest bound (head + 1) n).or (bound head) := by
  induction n with
  | zero =>
    obtain rfl : head = 0 := Nat.le_zero.mp hn
    rw [nearest, if_pos rfl, nearest_of_lt (Nat.lt_succ_self 0)]
    rfl
  | succ n ih =>
    rw [nearest, if_pos hn]
    by_cases heq : head = n + 1
    · rw [heq, nearest_of_lt (Nat.lt_succ_self n), nearest_of_lt (Nat.lt_succ_self _)]
      simp
    · have hle : head ≤ n := by omega
      rw [ih hle, nearest, if_pos (Nat.succ_le_succ hle), Option.or_assoc]

end Nearest

/-- The declarations of a plan that were not met before, each address once. -/
def unseen (stableUrl : String → String) :
    List String → List (Segment × Option Nat) → List (String × Option Nat)
  | _, [] => []
  | seen, d :: ds =>
    if mapStableKey stableUrl d.1 ∈ seen then unseen stableUrl seen ds
    else (mapStableKey stableUrl d.1, d.2) ::
      unseen stableUrl (mapStableKey stableUrl d.1 :: seen) ds

/-- The last of them that is bound to `n`; `ahead` says which numbers can be bound to. -/
def lastFor (ahead : Nat → Bool) (n : Nat) : List (String × Option Nat) → Option String
  | [] => none
  | d :: ds => (lastFor ahead n ds).or (if d.2 = some n ∧ ahead n = true then some d.1 else none)

/-- The first of them that cannot be bound. -/
def firstLoose (ahead : Nat → Bool) : List (String × Option Nat) → Option String
  | [] => none
  | d :: ds => if d.2.any ahead then firstLoose ahead ds else some d.1

/-- What has the same key has the same byte range. -/
def Coherent (l : List (String × Option (Nat × Nat))) : Prop :=
  ∀ p ∈ l, ∀ q ∈ l, p.1 = q.1 → p.2 = q.2

instance (l : List (String × Option (Nat × Nat))) : Decidable (Coherent l) :=
  inferInstanceAs (Decidable (∀ p ∈ l, ∀ q ∈ l, p.1 = q.1 → p.2 = q.2))

theorem Coherent.sub {l l' : List (String × Option (Nat × Nat))} (h : Coherent l)
    (hsub : ∀ p ∈ l', p ∈ l) : Coherent l' :=
  fun p hp q hq => h p (hsub p hp) q (hsub q hq)

namespace LiveState

section
variable (stableUrl : String → String) (s : LiveState)

/-- The key of what is bound to a number. -/
def keyAt (n : Nat) : Option String := (s.maps.find? n).map fun m => mapStableKey stableUrl m.seg

/-- The key of what hangs. -/
def hanging : Option String := s.leadingMap.map fun m => mapStableKey stableUrl m.seg

/-- **The line**: the key of the initialisation segment that is the last before a number. -/
def inLine (n : Nat) : Option String :=
  (nearest (s.keyAt stableUrl) s.headSeq n).or ((s.hanging stableUrl).or s.writtenMap)

/-- The keys in the line that are not written, with their byte ranges. -/
def mapPairs : List (String × Option (Nat × Nat)) :=
  (s.leadingMap.toList ++ s.maps.entries.map Prod.snd).map
    fun m => (mapStableKey stableUrl m.seg, m.seg.range)

/-- The numbers behind the head when the window starts at `w`. -/
def ahead (w b : Nat) : Bool := decide (s.headSeq < b ∧ s.Stays w (b - 1))

/-- What is bound to a number when a snapshot has been taken in. -/
def keyAfter (plan : PlaylistPlan) (w n : Nat) : Option String :=
  (lastFor (s.ahead w) n (unseen stableUrl s.mapSeen plan.declarations)).or
    (if s.Stays w n then s.keyAt stableUrl n else none)

/-- The line when a snapshot has been taken in: what is bound to the numbers that the head does
not go past, and what the snapshot binds; before that what hangs, or the first that the snapshot
cannot bind; before that what was written. -/
def inLineAfter (plan : PlaylistPlan) (w n : Nat) : Option String :=
  (nearest (s.keyAfter stableUrl plan w) s.headSeq n).or
    (((s.hanging stableUrl).or
      (firstLoose (s.ahead w) (unseen stableUrl s.mapSeen plan.declarations))).or s.writtenMap)

end

/-! ## What a snapshot does to the line -/

section
variable {stableUrl : String → String}

theorem refresh_pair {m : LiveItem} {seg : Segment}
    (hrange : mapStableKey stableUrl m.seg = mapStableKey stableUrl seg → m.seg.range = seg.range)
    (hkey : mapStableKey stableUrl m.seg = mapStableKey stableUrl seg) :
    mapStableKey stableUrl (m.refresh seg).seg = mapStableKey stableUrl m.seg ∧
      (m.refresh seg).seg.range = m.seg.range := by
  rw [LiveItem.refresh]
  split
  · refine ⟨?_, rfl⟩
    rw [hkey, mapStableKey, mapStableKey]
    dsimp only
    rw [hrange hkey]
  · exact ⟨rfl, rfl⟩

/-- Refreshing keeps the line. -/
theorem refreshMap_line (s : LiveState) (seg : Segment)
    (hco : Coherent (s.mapPairs stableUrl ++ [(mapStableKey stableUrl seg, seg.range)])) :
    (s.refreshMap stableUrl seg).keyAt stableUrl = s.keyAt stableUrl ∧
      (s.refreshMap stableUrl seg).hanging stableUrl = s.hanging stableUrl ∧
      ∀ p ∈ (s.refreshMap stableUrl seg).mapPairs stableUrl, p ∈ s.mapPairs stableUrl := by
  have hrange : ∀ m : LiveItem, m ∈ s.leadingMap.toList ++ s.maps.entries.map Prod.snd →
      mapStableKey stableUrl m.seg = mapStableKey stableUrl seg → m.seg.range = seg.range :=
    fun m hm => hco (mapStableKey stableUrl m.seg, m.seg.range)
      (List.mem_append_left _ (List.mem_map_of_mem hm)) (mapStableKey stableUrl seg, seg.range)
      (List.mem_append_right _ (List.mem_singleton.mpr rfl))
  have hmaps : (s.refreshMaps stableUrl seg).keyAt stableUrl = s.keyAt stableUrl ∧
      (s.refreshMaps stableUrl seg).hanging stableUrl = s.hanging stableUrl ∧
      ∀ p ∈ (s.refreshMaps stableUrl seg).mapPairs stableUrl, p ∈ s.mapPairs stableUrl := by
    rw [refreshMaps]
    split
    · rename_i e he
      have hmem := List.mem_of_find?_eq_some he
      have hkey : mapStableKey stableUrl e.2.seg = mapStableKey stableUrl seg := by
        simpa using List.find?_some he
      have hpair := refresh_pair (hrange e.2 (List.mem_append_right _
        (List.mem_map_of_mem hmem))) hkey
      have hfind : s.maps.find? e.1 = some e.2 := SortedMap.find?_eq_some.mpr hmem
      refine ⟨funext fun n => ?_, rfl, fun p hp => ?_⟩
      · simp only [keyAt]
        rw [SortedMap.find?_adjust]
        split
        · rename_i hn
          rw [hn, hfind]
          exact congrArg some hpair.1
        · rfl
      · simp only [mapPairs, List.mem_map, List.mem_append] at hp ⊢
        obtain ⟨m, hm | ⟨f, hf, rfl⟩, rfl⟩ := hp
        · exact ⟨m, .inl hm, rfl⟩
        · obtain ⟨f', hf', rfl⟩ := List.mem_map.mp hf
          split
          · rename_i hk
            have hsame : f'.2 = e.2 := by
              have := SortedMap.find?_eq_some.mpr (show (f'.1, f'.2) ∈ s.maps.entries from hf')
              rw [hk, hfind] at this
              exact (Option.some.inj this).symm
            refine ⟨f'.2, .inr ⟨f', hf', rfl⟩, ?_⟩
            rw [hsame, hpair.1, hpair.2]
          · exact ⟨f'.2, .inr ⟨f', hf', rfl⟩, rfl⟩
    · exact ⟨rfl, rfl, fun p hp => hp⟩
  rw [refreshMap]
  split
  · rename_i m hm
    split
    · rename_i hkey
      have hpair := refresh_pair (hrange m (List.mem_append_left _ (by rw [hm]; simp))) hkey
      refine ⟨rfl, ?_, fun p hp => ?_⟩
      · simp only [hanging, hm, Option.map_some, hpair.1]
      · simp only [mapPairs, hm, Option.toList_some, List.singleton_append, List.map_cons,
          List.mem_cons, hpair.1, hpair.2] at hp ⊢
        exact hp
    · exact hmaps
  · exact hmaps

/-- A declaration that was not met before is bound, or it hangs if nothing does. -/
theorem placeMap_line (s : LiveState) (seg : Segment) (bound : Option Nat) :
    (∀ n, (s.placeMap seg bound).keyAt stableUrl n =
      (if bound = some n ∧ decide (s.headSeq < n) = true then some (mapStableKey stableUrl seg)
        else none).or (s.keyAt stableUrl n)) ∧
      (s.placeMap seg bound).hanging stableUrl =
        (s.hanging stableUrl).or (if bound.any fun b => decide (s.headSeq < b) then none
          else some (mapStableKey stableUrl seg)) ∧
      ∀ p ∈ (s.placeMap seg bound).mapPairs stableUrl,
        p ∈ s.mapPairs stableUrl ++ [(mapStableKey stableUrl seg, seg.range)] := by
  have hhang : (s.hangMap seg).keyAt stableUrl = s.keyAt stableUrl ∧
      (s.hangMap seg).hanging stableUrl =
        (s.hanging stableUrl).or (some (mapStableKey stableUrl seg)) ∧
      ∀ p ∈ (s.hangMap seg).mapPairs stableUrl,
        p ∈ s.mapPairs stableUrl ++ [(mapStableKey stableUrl seg, seg.range)] := by
    rw [hangMap]
    split
    · rename_i m hm
      refine ⟨rfl, ?_, fun p hp => List.mem_append_left _ hp⟩
      simp [hanging, hm]
    · rename_i hnone
      refine ⟨rfl, ?_, fun p hp => ?_⟩
      · simp only [hanging, hnone]
        rfl
      · simp only [mapPairs, hnone, Option.toList_some, Option.toList_none, List.singleton_append,
          List.nil_append, List.map_cons, List.mem_cons] at hp ⊢
        rw [List.mem_append]
        exact hp.elim (fun h => .inr (List.mem_singleton.mpr h)) .inl
  cases bound with
  | none => exact ⟨fun n => by simp [placeMap, hhang.1], by simp [placeMap, hhang.2.1], hhang.2.2⟩
  | some b =>
    rw [placeMap]
    split
    · rename_i hb
      refine ⟨fun n => ?_, ?_, fun p hp => ?_⟩
      · simp only [keyAt]
        rw [SortedMap.find?_insert]
        by_cases hn : b = n
        · subst hn
          simp [hb]
          rfl
        · simp [hn]
      · simp [hanging, hb]
      · simp only [mapPairs, List.mem_map, List.mem_append] at hp ⊢
        obtain ⟨m, hm | ⟨f, hf, rfl⟩, rfl⟩ := hp
        · exact .inl ⟨m, .inl hm, rfl⟩
        · rcases SortedMap.mem_of_mem_insert hf with rfl | hf
          · exact .inr (List.mem_singleton.mpr rfl)
          · exact .inl ⟨f.2, .inr ⟨f, hf, rfl⟩, rfl⟩
    · rename_i hb
      refine ⟨fun n => ?_, ?_, hhang.2.2⟩
      · rw [hhang.1]
        by_cases hn : b = n
        · subst hn
          simp [hb]
        · simp [hn]
      · rw [hhang.2.1]
        simp [hb]

/-- The key of a declaration with its byte range. -/
def pairOf (stableUrl : String → String) (d : Segment × Option Nat) :
    String × Option (Nat × Nat) := (mapStableKey stableUrl d.1, d.1.range)

/-- **What the declarations of a snapshot do to the line.** -/
theorem considerMaps_line (ds : List (Segment × Option Nat)) (s : LiveState × Nat)
    (hco : Coherent (s.1.mapPairs stableUrl ++ ds.map (pairOf stableUrl))) :
    (∀ n, (ds.foldl (considerMap stableUrl) s).1.keyAt stableUrl n =
      (lastFor (fun b => decide (s.1.headSeq < b)) n (unseen stableUrl s.1.mapSeen ds)).or
        (s.1.keyAt stableUrl n)) ∧
      (ds.foldl (considerMap stableUrl) s).1.hanging stableUrl =
        (s.1.hanging stableUrl).or
          (firstLoose (fun b => decide (s.1.headSeq < b)) (unseen stableUrl s.1.mapSeen ds)) := by
  induction ds generalizing s with
  | nil => exact ⟨fun _ => rfl, by simp [unseen, firstLoose]⟩
  | cons d ds ih =>
    rw [List.foldl_cons]
    by_cases hseen : mapStableKey stableUrl d.1 ∈ s.1.mapSeen
    · have hstep : considerMap stableUrl s d = (s.1.refreshMap stableUrl d.1, s.2) := if_pos hseen
      obtain ⟨maps, leading, hframe⟩ := refreshMap_frame stableUrl s.1 d.1
      obtain ⟨hkey, hhang, hpairs⟩ := refreshMap_line s.1 d.1 (hco.sub fun p hp => by
        rcases List.mem_append.mp hp with hp | hp
        · exact List.mem_append_left _ hp
        · exact List.mem_append_right _ (by rw [List.mem_singleton.mp hp]; exact List.mem_cons_self))
      have hhead : (s.1.refreshMap stableUrl d.1).headSeq = s.1.headSeq := by rw [hframe]
      have hsame : (s.1.refreshMap stableUrl d.1).mapSeen = s.1.mapSeen := by rw [hframe]
      obtain ⟨hk, hh⟩ := ih (s.1.refreshMap stableUrl d.1, s.2) (hco.sub fun p hp => by
        rcases List.mem_append.mp hp with hp | hp
        · exact List.mem_append_left _ (hpairs p hp)
        · exact List.mem_append_right _ (List.mem_cons_of_mem _ hp))
      dsimp only at hk hh
      rw [hhead, hsame, hkey] at hk
      rw [hhead, hsame, hhang] at hh
      rw [hstep, unseen, if_pos hseen]
      exact ⟨hk, hh⟩
    · have hstep : considerMap stableUrl s d =
          ({ s.1 with mapSeen := mapStableKey stableUrl d.1 :: s.1.mapSeen }.placeMap d.1 d.2,
            s.2 + 1) := if_neg hseen
      generalize hs1 : { s.1 with mapSeen := mapStableKey stableUrl d.1 :: s.1.mapSeen } = s1 at hstep
      obtain ⟨maps, leading, hframe⟩ := placeMap_frame s1 d.1 d.2
      obtain ⟨hkey, hhang, hpairs⟩ := @placeMap_line stableUrl s1 d.1 d.2
      have hhead : (s1.placeMap d.1 d.2).headSeq = s.1.headSeq := by rw [hframe, ← hs1]
      have hsame : (s1.placeMap d.1 d.2).mapSeen =
          mapStableKey stableUrl d.1 :: s.1.mapSeen := by rw [hframe, ← hs1]
      have hkey1 : s1.keyAt stableUrl = s.1.keyAt stableUrl := by rw [← hs1]; rfl
      have hhang1 : s1.hanging stableUrl = s.1.hanging stableUrl := by rw [← hs1]; rfl
      have hhead1 : s1.headSeq = s.1.headSeq := by rw [← hs1]
      have hpairs1 : s1.mapPairs stableUrl = s.1.mapPairs stableUrl := by rw [← hs1]; rfl
      obtain ⟨hk, hh⟩ := ih (s1.placeMap d.1 d.2, s.2 + 1) (hco.sub fun p hp => by
        rcases List.mem_append.mp hp with hp | hp
        · rcases List.mem_append.mp (hpairs p hp) with hp | hp
          · exact List.mem_append_left _ (hpairs1 ▸ hp)
          · refine List.mem_append_right _ ?_
            rw [List.mem_singleton.mp hp]
            exact List.mem_cons_self
        · exact List.mem_append_right _ (List.mem_cons_of_mem _ hp))
      dsimp only at hk hh
      rw [hhead, hsame] at hk hh
      rw [hstep, unseen, if_neg hseen, firstLoose]
      refine ⟨fun n => ?_, ?_⟩
      · rw [hk, hkey, hkey1, hhead1, lastFor, Option.or_assoc]
      · rw [hh, hhang, hhang1, hhead1]
        dsimp only
        split
        · rw [Option.or_none]
        · cases s.1.hanging stableUrl <;> rfl

theorem lastFor_of_not_ahead {ahead : Nat → Bool} {n : Nat} (h : ahead n = false)
    (l : List (String × Option Nat)) : lastFor ahead n l = none := by
  induction l with
  | nil => rfl
  | cons d l ih => rw [lastFor, ih, if_neg (by simp [h])]; rfl

/-- **What a snapshot does to the line**: for every number that the head has not gone past, the
line is the one told from the state before and the snapshot. -/
theorem inLine_applyWindow (s : LiveState) (plan : PlaylistPlan) (first last : Segment)
    (now : Nat)
    (hco : Coherent (s.mapPairs stableUrl ++ plan.declarations.map (pairOf stableUrl))) {n : Nat}
    (hn : (s.applyWindow stableUrl plan first last now).headSeq ≤ n) :
    (s.applyWindow stableUrl plan first last now).inLine stableUrl n =
      s.inLineAfter stableUrl plan first.seq n := by
  obtain ⟨h, slid, bound, hslide, hlo, hstays, -, -, hmaps⟩ :=
    slide_spec { s with winTail := max s.winTail last.seq } first.seq
  dsimp only at hlo hstays hmaps
  have hwin : s.window first last = { s with
      winTail := max s.winTail last.seq, headSeq := h, segs := slid, maps := bound } := hslide
  have hstays' : ∀ m, s.headSeq ≤ m → (h ≤ m ↔ s.Stays first.seq m) := hstays
  have hkeyAt : ∀ m, (s.window first last).keyAt stableUrl m =
      if s.headSeq ≤ m ∧ m < h then none else s.keyAt stableUrl m := by
    intro m
    rw [keyAt, hwin]
    dsimp only
    rw [hmaps]
    split <;> rfl
  have hpairs : ∀ p ∈ (s.window first last).mapPairs stableUrl, p ∈ s.mapPairs stableUrl := by
    intro p hp
    rw [mapPairs, hwin] at hp
    simp only [mapPairs, List.mem_map, List.mem_append] at hp ⊢
    obtain ⟨m, hm | ⟨e, he, rfl⟩, rfl⟩ := hp
    · exact ⟨m, .inl hm, rfl⟩
    · have hfind := hmaps e.1
      rw [SortedMap.find?_eq_some.mpr (show (e.1, e.2) ∈ bound.entries from he)] at hfind
      split at hfind
      · cases hfind
      · exact ⟨e.2, .inr ⟨e, SortedMap.find?_eq_some.mp hfind.symm, rfl⟩, rfl⟩
  obtain ⟨hkey, hhang⟩ := considerMaps_line plan.declarations (s.window first last, 0)
    (hco.sub fun p hp => (List.mem_append.mp hp).elim
      (fun hp => List.mem_append_left _ (hpairs p hp)) (List.mem_append_right _))
  obtain ⟨maps, leading, seen, hframe⟩ :=
    considerMaps_frame stableUrl plan.declarations (s.window first last, 0)
  obtain ⟨segs, streamEnd, stopped, lastNewAt, happ⟩ :=
    applyWindow_frame stableUrl s plan first last now
  have hhead : (plan.declarations.foldl (considerMap stableUrl) (s.window first last, 0)).1.headSeq
      = h := by rw [hframe, hwin]
  have hwritten :
      (plan.declarations.foldl (considerMap stableUrl) (s.window first last, 0)).1.writtenMap
      = s.writtenMap := by rw [hframe, hwin]
  have hfacts : (s.window first last).headSeq = h ∧
      (s.window first last).mapSeen = s.mapSeen ∧
      (s.window first last).hanging stableUrl = s.hanging stableUrl := by
    rw [hwin]
    exact ⟨rfl, rfl, rfl⟩
  -- what is ahead of the head, told from the state before
  have hahead : (fun b => decide (h < b)) = s.ahead first.seq := by
    funext b
    rw [ahead, decide_eq_decide]
    constructor
    · intro hb
      exact ⟨by omega, (hstays' (b - 1) (by omega)).mp (by omega)⟩
    · rintro ⟨hb, hst⟩
      have := (hstays' (b - 1) (by omega)).mpr hst
      omega
  dsimp only at hkey hhang
  rw [hfacts.1, hfacts.2.1, hahead] at hkey
  rw [hfacts.1, hfacts.2.1, hfacts.2.2, hahead] at hhang
  have hn' : h ≤ n := by
    rw [happ] at hn
    dsimp only at hn
    rw [hhead] at hn
    exact hn
  rw [inLine, inLineAfter, happ]
  have hline : ∀ (t : LiveState) segs e e' l,
      ({ t with segs := segs, streamEnd := e, reloadStopped := e', lastNewAt := l } :
        LiveState).keyAt stableUrl = t.keyAt stableUrl := fun _ _ _ _ _ => rfl
  have hloose : ∀ (t : LiveState) segs e e' l,
      ({ t with segs := segs, streamEnd := e, reloadStopped := e', lastNewAt := l } :
        LiveState).hanging stableUrl = t.hanging stableUrl := fun _ _ _ _ _ => rfl
  rw [hline, hloose]
  dsimp only
  rw [hhead, hwritten, hhang]
  have hbottom : ∀ m, s.headSeq ≤ m → m < h → s.keyAfter stableUrl plan first.seq m = none := by
    intro m hm hlt
    have hnot : ¬ s.Stays first.seq m := fun hst => by
      have := (hstays' m hm).mpr hst
      omega
    have hna : s.ahead first.seq m = false := by
      rw [← hahead, decide_eq_false_iff_not]
      omega
    rw [keyAfter, lastFor_of_not_ahead hna, if_neg hnot]
    rfl
  rw [nearest_raise hlo hbottom]
  congr 1
  refine nearest_congr fun m hm _ => ?_
  rw [hkey, hkeyAt, keyAfter, if_neg (by omega), if_pos ((hstays' m (by omega)).mp hm)]

/-- Splicing keeps the line of the numbers ahead. -/
theorem spliceOne_inLine {s s' : LiveState} {key : LiveKey} {it : LiveItem}
    (h : s.spliceOne stableUrl = some (key, it, s')) {n : Nat} (hn : s'.headSeq ≤ n) :
    s'.inLine stableUrl n = s.inLine stableUrl n := by
  obtain ⟨-, ⟨-, hlead, rfl⟩ | ⟨-, hlead, hmap, rfl⟩ | ⟨-, hlead, hmap, -, rfl⟩⟩ :=
    spliceOne_cases stableUrl h
  · simp only [inLine, hanging, hlead, Option.map_none, Option.map_some, Option.none_or,
      Option.some_or]
    rfl
  · have hkey : s.keyAt stableUrl s.headSeq = some (mapStableKey stableUrl it.seg) := by
      rw [keyAt, hmap]
      rfl
    have herase : ∀ t : LiveState, t.maps = s.maps.erase s.headSeq → ∀ m,
        t.keyAt stableUrl m = if m = s.headSeq then none else s.keyAt stableUrl m := by
      intro t ht m
      simp only [keyAt]
      rw [ht, SortedMap.find?_erase]
      split <;> rfl
    simp only [inLine, hanging, hlead, Option.map_none, Option.none_or]
    rw [nearest_raise (Nat.le_succ s.headSeq) fun m hm hlt => by
        rw [herase _ rfl, if_pos (by omega)],
      nearest_bottom hn, hkey, Option.or_assoc, Option.some_or]
    congr 1
    exact nearest_congr fun m hm _ => by rw [herase _ rfl, if_neg (by omega)]
  · have hkey : s.keyAt stableUrl s.headSeq = none := by
      rw [keyAt, hmap]
      rfl
    simp only [inLine]
    have hraise : ∀ n, nearest (s.keyAt stableUrl) s.headSeq n =
        nearest (s.keyAt stableUrl) (s.headSeq + 1) n := fun n =>
      nearest_raise (Nat.le_succ s.headSeq) fun m hm hlt => by
        rw [show m = s.headSeq by omega, hkey]
    rw [hraise]
    rfl

/-- Before the segment at the head the last initialisation segment is the one written last. -/
theorem spliceOne_written {s s' : LiveState} {n : Nat} {it : LiveItem}
    (h : s.spliceOne stableUrl = some (.seg n, it, s')) :
    n = s.headSeq ∧ s.segs.find? n = some it ∧ s.inLine stableUrl n = s.writtenMap := by
  obtain ⟨-, ⟨hkey, -⟩ | ⟨hkey, -⟩ | ⟨hkey, hlead, hmap, hseg, -⟩⟩ := spliceOne_cases stableUrl h
  · cases hkey
  · cases hkey
  · obtain rfl : n = s.headSeq := LiveKey.seg.inj hkey
    refine ⟨rfl, hseg, ?_⟩
    have hnone : s.keyAt stableUrl s.headSeq = none := by
      rw [keyAt, hmap]
      rfl
    rw [inLine, nearest_head _ hnone, hanging, hlead]
    rfl

/-- Loading keeps the line. -/
theorem onItem_inLine (s : LiveState) (key : LiveKey) {f : LiveItem → LiveItem}
    (hf : ∀ it, (f it).seg = it.seg) (n : Nat) :
    (s.onItem key f).inLine stableUrl n = s.inLine stableUrl n := by
  cases key with
  | leadingMap =>
    have : (s.onItem .leadingMap f).hanging stableUrl = s.hanging stableUrl := by
      simp only [hanging, onItem, Option.map_map]
      cases s.leadingMap with
      | none => rfl
      | some m => exact congrArg some (by rw [Function.comp_apply, hf])
    rw [inLine, this]
    rfl
  | map seq =>
    have : (s.onItem (.map seq) f).keyAt stableUrl = s.keyAt stableUrl := by
      funext m
      simp only [keyAt, onItem]
      rw [SortedMap.find?_adjust]
      split
      · cases s.maps.find? m with
        | none => rfl
        | some it => exact congrArg some (by dsimp only; rw [hf])
      · rfl
    rw [inLine, this]
    rfl
  | seg seq => rfl

end

/-- **The line of a snapshot fits**: before each segment that is to come, those that it brings and
those that were there, the line has what was declared for it. -/
def Fits (stableUrl : String → String) (s : LiveState) (plan : PlaylistPlan)
    (declared : Nat → Option String) : Prop :=
  ∀ first ∈ plan.segments.head?,
    Coherent (s.mapPairs stableUrl ++ plan.declarations.map (pairOf stableUrl)) ∧
      ∀ n ∈ s.segs.keys.filter (s.survives first.seq) ++ plan.media.map (·.seq),
        s.headSeq ≤ n → s.Stays first.seq n →
          ∀ d ∈ s.declareNew stableUrl plan declared n,
            s.inLineAfter stableUrl plan first.seq n = some d

instance (stableUrl : String → String) (s : LiveState) (plan : PlaylistPlan)
    (declared : Nat → Option String) : Decidable (s.Fits stableUrl plan declared) :=
  inferInstanceAs (Decidable (∀ first ∈ plan.segments.head?, Coherent _ ∧ ∀ n ∈ _,
    s.headSeq ≤ n → s.Stays first.seq n → ∀ d ∈ _, _))

/-- Before each segment in the queue the line has what was declared for it. -/
structure Lined (stableUrl : String → String) (s : LiveState) (declared : Nat → Option String) :
    Prop where
  ordered : s.Ordered
  inLine : ∀ n, (s.segs.find? n).isSome = true → ∀ d ∈ declared n,
    s.inLine stableUrl n = some d

theorem Lined.apply {stableUrl : String → String} {s : LiveState} {plan : PlaylistPlan}
    {declared : Nat → Option String} (h : s.Lined stableUrl declared)
    (hfit : s.Fits stableUrl plan declared) (now : Nat) :
    (s.apply stableUrl plan now).Lined stableUrl (s.declareNew stableUrl plan declared) := by
  rcases apply_cases stableUrl s plan now with ⟨hnil, hsame⟩ | ⟨first, last, hf, hl, happ⟩
  · rw [hsame, declareNew, hnil]
    exact h
  · have heq : s.apply stableUrl plan now = s.applyWindow stableUrl plan first last now := by
      rw [LiveState.apply, hf, hl]
    have hord := happ.ordered h.ordered
    refine ⟨hord, fun n hn d hd => ?_⟩
    obtain ⟨hco, hall⟩ := hfit first hf
    have hhead := hord n hn
    have hlo := Nat.le_trans happ.head_le hhead
    have hmem : n ∈ s.segs.keys.filter (s.survives first.seq) ++ plan.media.map (·.seq) := by
      rcases (happ.ahead n hlo).mp hn with hsurv | ⟨-, seg, hseg, hq⟩
      · refine List.mem_append_left _ (List.mem_filter.mpr ⟨SortedMap.find?_isSome.mp ?_, hsurv⟩)
        rw [survives] at hsurv
        cases hfind : s.segs.find? n with
        | none =>
          rw [hfind] at hsurv
          cases hsurv
        | some it => rfl
      · exact List.mem_append_right _ (List.mem_map.mpr ⟨seg, hseg, hq⟩)
    rw [heq] at hhead ⊢
    rw [inLine_applyWindow s plan first last now hco hhead]
    exact hall n hmem hlo ((happ.stays n hlo).mp (heq ▸ hhead)) d hd

end LiveState

/-! ## The product -/

/-- **Before each segment with media the last initialisation segment is the one that the playlist
declares for it**, if it declares one. -/
def InitsFit (stableUrl : String → String) (l : List Spliced) : Prop :=
  ∀ before x after, l = before ++ x :: after → ∀ d ∈ x.declared,
    lastInit stableUrl before = some d

theorem InitsFit.nil (stableUrl : String → String) : InitsFit stableUrl [] := by
  intro before x after h
  exact absurd h.symm (by simp)

theorem InitsFit.last {stableUrl : String → String} {l : List Spliced} {x : Spliced} {d : String}
    (h : InitsFit stableUrl l) (n : Nat) (hx : l[n]? = some x) (hd : x.declared = some d) :
    lastInit stableUrl (l.take n) = some d := by
  obtain ⟨hn, rfl⟩ := List.getElem?_eq_some_iff.mp hx
  refine h (l.take n) _ (l.drop (n + 1)) ?_ d hd
  rw [List.getElem_cons_drop, List.take_append_drop]

theorem InitsFit.add {stableUrl : String → String} {l : List Spliced} {x : Spliced}
    (h : InitsFit stableUrl l) (hx : ∀ d ∈ x.declared, lastInit stableUrl l = some d) :
    InitsFit stableUrl (l ++ [x]) := by
  intro before y after heq d hd
  rcases List.eq_nil_or_concat after with rfl | ⟨after', z, rfl⟩
  · obtain ⟨rfl, hxy⟩ := List.append_inj' heq rfl
    obtain rfl : x = y := List.head_eq_of_cons_eq hxy
    exact hx d hd
  · rw [List.concat_eq_append, ← List.cons_append, ← List.append_assoc] at heq
    exact h before y after' (List.append_inj_left' heq rfl) d hd

namespace Recording

variable {stableUrl : String → String} {opts : LiveOptions} {r r' : Recording} {s s' : Session}

/-- The line fits in every snapshot that is taken in. -/
def Declares (stableUrl : String → String) (r : Recording) : LiveEvent → Prop
  | .start plan =>
    (startLive (r.resume stableUrl plan) plan r.now).Fits stableUrl plan fun _ => none
  | .snapshot plan =>
    ∀ s ∈ r.session, plan.partsOnly = false → s.live.Fits stableUrl plan s.declared
  | _ => True

instance decidableDeclares (stableUrl : String → String) (r : Recording) :
    (e : LiveEvent) → Decidable (r.Declares stableUrl e)
  | .start plan => inferInstanceAs (Decidable (LiveState.Fits stableUrl _ plan _))
  | .snapshot plan =>
    inferInstanceAs (Decidable (∀ s ∈ r.session, _ → s.live.Fits stableUrl plan s.declared))
  | .turn _ | .snapshotFailed _ | .loaded _ _ | .loadFailed _ | .wait _ | .cancel | .writeOut _
  | .spliceFailed _ | .diskFailed | .close _ | .kill => instDecidableTrue

/-- What holds in every state when the line fits in every snapshot. -/
structure Ready (stableUrl : String → String) (r : Recording) : Prop where
  follows : Follows stableUrl r
  inits : InitsFit stableUrl r.spliced
  saved : r.ctrl.isSome = true → InitsFit stableUrl r.saved
  lined : ∀ s ∈ r.session, s.exit = none → s.live.Lined stableUrl s.declared

/-- One segment is spliced. -/
theorem spliceOne_lined {bytes : Nat} (h : Sums stableUrl r s) (hi : InitsFit stableUrl r.spliced)
    (hl : s.live.Lined stableUrl s.declared)
    (hone : r.spliceOne stableUrl s = some (r', s', bytes)) :
    InitsFit stableUrl r'.spliced ∧ s'.live.Lined stableUrl s'.declared ∧ s'.exit = s.exit := by
  rw [Recording.spliceOne, Option.map_eq_some_iff] at hone
  obtain ⟨⟨key, it, live⟩, hlive, heq⟩ := hone
  obtain ⟨rfl, rfl, rfl⟩ := heq
  refine ⟨hi.add fun d hd => ?_, ⟨LiveState.spliceOne_ordered hlive hl.ordered, fun n hn d hd => ?_⟩,
    rfl⟩
  · cases key with
    | leadingMap => cases hd
    | map seq => cases hd
    | seg n =>
      obtain ⟨-, hseg, hline⟩ := LiveState.spliceOne_written hlive
      have hdecl := hl.inLine n (by rw [hseg]; rfl) d hd
      exact h.describes.map d (hline.symm.trans hdecl)
  · have hord := LiveState.spliceOne_ordered hlive hl.ordered
    rw [LiveState.spliceOne_inLine hlive (hord n hn)]
    refine hl.inLine n ?_ d hd
    obtain ⟨-, ⟨-, -, rfl⟩ | ⟨-, -, -, rfl⟩ | ⟨-, -, -, -, rfl⟩⟩ :=
      LiveState.spliceOne_cases stableUrl hlive
    · exact hn
    · exact hn
    · dsimp only at hn
      rw [SortedMap.find?_erase] at hn
      split at hn
      · cases hn
      · exact hn

theorem spliceBatch_lined {rounds moved : Nat} (h : Sums stableUrl r s)
    (hi : InitsFit stableUrl r.spliced) (hl : s.live.Lined stableUrl s.declared)
    (heq : spliceBatch stableUrl rounds r s moved = (r', s')) :
    InitsFit stableUrl r'.spliced ∧ s'.live.Lined stableUrl s'.declared := by
  induction rounds generalizing r s moved with
  | zero =>
    obtain ⟨rfl, rfl⟩ := heq
    exact ⟨hi, hl⟩
  | succ rounds ih =>
    rw [spliceBatch] at heq
    cases hone : r.spliceOne stableUrl s with
    | none =>
      rw [hone] at heq
      obtain ⟨rfl, rfl⟩ := heq
      exact ⟨hi, hl⟩
    | some out =>
      obtain ⟨r1, s1, bytes⟩ := out
      rw [hone] at heq
      dsimp only at heq
      obtain ⟨hi1, hl1, -⟩ := spliceOne_lined h hi hl hone
      split at heq
      · obtain ⟨rfl, rfl⟩ := heq
        exact ⟨hi1, hl1⟩
      · exact ih (h.spliceOne hone).1 hi1 hl1 heq

theorem onItem_lined {live : LiveState} {declared : Nat → Option String} {key : LiveKey}
    {f : LiveItem → LiveItem} (hf : ∀ it, (f it).seg = it.seg)
    (hl : live.Lined stableUrl declared) : (live.onItem key f).Lined stableUrl declared := by
  have hsame := LiveState.onItem_same live key f
  refine ⟨hsame.ordered hl.ordered, fun n hn d hd => ?_⟩
  rw [LiveState.onItem_inLine live key hf]
  exact hl.inLine n ((hsame.mem n).mp hn) d hd

theorem dispatch_lined (now room : Nat) (hl : s.live.Lined stableUrl s.declared) :
    (dispatch now room s).live.Lined stableUrl (dispatch now room s).declared := by
  induction room generalizing s with
  | zero => exact hl
  | succ room ih =>
    rw [dispatch]
    cases htake : s.live.takeForDispatch now with
    | none => exact hl
    | some out =>
      obtain ⟨key, live⟩ := out
      rw [LiveState.takeForDispatch, Option.map_eq_some_iff] at htake
      obtain ⟨key', -, heq⟩ := htake
      obtain ⟨rfl, rfl⟩ := heq
      exact ih (s := { s with live := s.live.onItem _ _, inflight := s.inflight ++ [_] })
        (onItem_lined (fun _ => rfl) hl)

theorem askSnapshot_lined (now : Nat) (hl : s.live.Lined stableUrl s.declared) :
    (askSnapshot now s).live.Lined stableUrl (askSnapshot now s).declared := by
  rw [askSnapshot]
  split
  · exact hl
  · exact hl

theorem saveDue_lined {flushed : Bool} (heq : r.saveDue s flushed = (r', s')) :
    s'.live = s.live ∧ s'.declared = s.declared ∧ r'.spliced = r.spliced ∧
      (r'.saved = r.spliced ∨ r'.saved = r.saved ∧ r'.ctrl = r.ctrl) := by
  rw [saveDue] at heq
  split at heq
  · cases flushed with
    | true =>
      obtain ⟨rfl, rfl⟩ := heq
      exact ⟨rfl, rfl, rfl, .inl rfl⟩
    | false =>
      obtain ⟨rfl, rfl⟩ := heq
      exact ⟨rfl, rfl, rfl, .inl rfl⟩
  · obtain ⟨rfl, rfl⟩ := heq
    exact ⟨rfl, rfl, rfl, .inr ⟨rfl, rfl⟩⟩

theorem turn_ready {flushed : Bool} (h : Ready stableUrl r) (hs : r.session = some s)
    (hexit : s.exit = none) (hf : Follows stableUrl (r.turn stableUrl opts s flushed)) :
    Ready stableUrl (r.turn stableUrl opts s flushed) := by
  rw [turn] at hf ⊢
  rcases hb : spliceBatch stableUrl (kept s.live + 1) r s 0 with ⟨r1, s1⟩
  rw [hb] at hf
  dsimp only at hf ⊢
  rcases hsave : r1.saveDue s1 flushed with ⟨r2, s2⟩
  rw [hsave] at hf
  dsimp only at hf ⊢
  have hsum := h.follows.session s hs
  obtain ⟨hi1, hl1⟩ := spliceBatch_lined hsum h.inits (h.lined s hs hexit) hb
  obtain ⟨-, -, hctrl, hsaved1, -⟩ := hsum.spliceBatch hb
  obtain ⟨hlive, hdecl, hspliced, hsaved⟩ := saveDue_lined hsave
  have hl2 : s2.live.Lined stableUrl s2.declared := by
    rw [hlive, hdecl]
    exact hl1
  have hinits : InitsFit stableUrl r2.spliced := by
    rw [hspliced]
    exact hi1
  have hkept : r2.ctrl.isSome = true → InitsFit stableUrl r2.saved := by
    intro hc
    rcases hsaved with hnew | ⟨hold, hsame⟩
    · rw [hnew]
      exact hi1
    · rw [hold, hsaved1]
      rw [hsame, hctrl] at hc
      exact h.saved hc
  have hl3 := dispatch_lined r2.now (opts.conn - s2.inflight.length) hl2
  split at hf
  · exact ⟨hf, hinits, hkept, fun t ht ht' => by
      obtain rfl := Option.some.inj ht
      cases ht'⟩
  · refine ⟨hf, hinits, hkept, fun t ht _ => ?_⟩
    obtain rfl := Option.some.inj ht
    exact askSnapshot_lined r2.now hl3

theorem start_ready {plan : PlaylistPlan} (h : Ready stableUrl r)
    (hd : r.Declares stableUrl (.start plan))
    (hf : Follows stableUrl (r.start stableUrl opts plan)) :
    Ready stableUrl (r.start stableUrl opts plan) := by
  have hinits : InitsFit stableUrl (r.start stableUrl opts plan).spliced := by
    rw [start]
    dsimp only
    split
    · rename_i hsome
      refine h.saved ?_
      rw [resume, Option.isSome_filter] at hsome
      cases hc : r.ctrl with
      | none =>
        rw [hc] at hsome
        cases hsome
      | some c => rfl
    · exact InitsFit.nil stableUrl
  have hstart : (startLive (r.resume stableUrl plan) plan r.now).Lined stableUrl
      fun _ => none := by
    refine ⟨fun n hn => ?_, fun n _ d hd => (by cases hd)⟩
    have hempty : (startLive (r.resume stableUrl plan) plan r.now).segs = .empty := by
      cases r.resume stableUrl plan with
      | none => rfl
      | some c => rfl
    rw [hempty] at hn
    cases hn
  refine ⟨hf, hinits, h.saved, fun t ht _ => ?_⟩
  obtain rfl := Option.some.inj ht
  exact hstart.apply hd r.now

/-- The session goes on with the same line, or its loop is left. -/
theorem Ready.same (h : Ready stableUrl r) (hf : Follows stableUrl r') (hl : r'.spliced = r.spliced) (hc : r'.ctrl = r.ctrl)
    (hv : r'.saved = r.saved) (hs' : r'.session = some s')
    (hlined : s'.exit = none → s'.live.Lined stableUrl s'.declared) : Ready stableUrl r' where
  follows := hf
  inits := hl ▸ h.inits
  saved := by
    rw [hc, hv]
    exact h.saved
  lined := by
    intro t ht hexit
    rw [hs'] at ht
    obtain rfl := Option.some.inj ht
    exact hlined hexit

theorem onSession_ready {e : LiveEvent} (h : Ready stableUrl r) (hs : r.session = some s)
    (hexit : s.exit = none) (hd : r.Declares stableUrl e) (hf : Follows stableUrl r')
    (hstep : r.onSession stableUrl opts s e = some r') : Ready stableUrl r' := by
  have hl := h.lined s hs hexit
  cases e with
  | turn flushed =>
    obtain rfl := Option.some.inj hstep
    exact turn_ready h hs hexit hf
  | snapshot plan =>
    simp only [onSession] at hstep
    split at hstep
    · obtain rfl := Option.some.inj hstep
      refine h.same hf rfl rfl rfl rfl fun _ => ?_
      dsimp only [LiveState.reloaded]
      split
      · exact ⟨hl.ordered, hl.inLine⟩
      · rename_i hparts
        have hfit := hd s hs (Bool.not_eq_true _ ▸ hparts)
        have hl' : LiveState.Lined stableUrl
            { s.live with failStreak := 0, goneStreak := 0, lastOkReload := r.now } s.declared :=
          ⟨hl.ordered, hl.inLine⟩
        exact hl'.apply hfit r.now
    · cases hstep
  | snapshotFailed gone =>
    simp only [onSession] at hstep
    split at hstep
    · obtain rfl := Option.some.inj hstep
      refine h.same hf rfl rfl rfl rfl fun _ => ?_
      dsimp only [LiveState.reloadFailed]
      split
      · split
        · exact ⟨hl.ordered, hl.inLine⟩
        · exact ⟨hl.ordered, hl.inLine⟩
      · exact ⟨hl.ordered, hl.inLine⟩
    · cases hstep
  | loaded key data =>
    simp only [onSession] at hstep
    split at hstep
    · obtain rfl := Option.some.inj hstep
      exact h.same hf rfl rfl rfl rfl fun _ => onItem_lined (fun _ => rfl) hl
    · cases hstep
  | loadFailed key =>
    simp only [onSession] at hstep
    split at hstep
    · obtain rfl := Option.some.inj hstep
      refine h.same hf rfl rfl rfl rfl fun _ => onItem_lined (fun it => ?_) hl
      rw [LiveState.loadFailed]
      split
      · rfl
      · rfl
    · cases hstep
  | cancel =>
    obtain rfl := Option.some.inj hstep
    exact h.same hf rfl rfl rfl rfl fun he => by cases he
  | diskFailed =>
    obtain rfl := Option.some.inj hstep
    exact h.same hf rfl rfl rfl rfl fun he => by cases he
  | spliceFailed bytes =>
    simp only [onSession, Option.map_eq_some_iff] at hstep
    obtain ⟨out, -, rfl⟩ := hstep
    exact h.same hf rfl rfl rfl rfl fun he => by cases he
  | start plan => cases hstep
  | wait ms => cases hstep
  | writeOut bytes => cases hstep
  | close flushed => cases hstep
  | kill => cases hstep

theorem close_ready {e : LiveExit} {flushed : Bool} (h : Ready stableUrl r)
    (hf : Follows stableUrl (r.close s e flushed)) :
    Ready stableUrl (r.close s e flushed) := by
  have hkept : InitsFit stableUrl (r.close s e flushed).spliced ∧
      ((r.close s e flushed).ctrl.isSome = true → InitsFit stableUrl (r.close s e flushed).saved) ∧
      (r.close s e flushed).session = none := by
    cases flushed with
    | true =>
      cases e with
      | failed => exact ⟨h.inits, fun _ => h.inits, rfl⟩
      | cancelled => exact ⟨h.inits, fun _ => h.inits, rfl⟩
      | ended => exact ⟨h.inits, nofun, rfl⟩
      | stalled => exact ⟨h.inits, nofun, rfl⟩
    | false => exact ⟨h.inits, fun _ => h.inits, rfl⟩
  refine ⟨hf, hkept.1, hkept.2.1, fun t ht => ?_⟩
  rw [hkept.2.2] at ht
  cases ht

theorem step_ready {e : LiveEvent} (h : Ready stableUrl r) (he : Whole e)
    (hd : r.Declares stableUrl e) (hstep : r.step stableUrl opts e = some r') :
    Ready stableUrl r' := by
  have hf := h.follows.step he hstep
  cases hs : r.session with
  | none =>
    cases e with
    | start plan =>
      simp only [step, hs] at hstep
      split at hstep
      · cases hstep
      · obtain rfl := Option.some.inj hstep
        exact start_ready h hd hf
    | wait ms =>
      obtain rfl := Option.some.inj hstep
      exact ⟨hf, h.inits, h.saved, fun t ht => (by rw [hs] at ht; cases ht)⟩
    | kill =>
      obtain rfl := Option.some.inj hstep
      exact ⟨hf, h.inits, h.saved, fun t ht => (by cases ht)⟩
    | _ => simp [step, hs] at hstep
  | some s =>
    cases e with
    | start plan => simp [step, hs] at hstep
    | wait ms =>
      obtain rfl := Option.some.inj hstep
      exact h.same hf rfl rfl rfl hs (h.lined s hs)
    | kill =>
      obtain rfl := Option.some.inj hstep
      exact ⟨hf, h.inits, h.saved, fun t ht => (by cases ht)⟩
    | writeOut n =>
      simp only [step, hs] at hstep
      obtain rfl := Option.some.inj hstep
      exact h.same hf rfl rfl rfl rfl (h.lined s hs)
    | close flushed =>
      simp only [step, hs, Option.map_eq_some_iff] at hstep
      obtain ⟨e, -, rfl⟩ := hstep
      exact close_ready h hf
    | _ =>
      simp only [step, hs] at hstep
      split at hstep
      · rename_i hexit
        exact onSession_ready h hs hexit hd hf hstep
      · cases hstep

/-- **The initialisation segments of a recording are right** in every state of a run in which the
line fits in every snapshot. -/
theorem inits_of_run {es : List LiveEvent} (hs : r.session = none) (hc : r.ctrl = none)
    (hl : r.spliced = []) (hes : ∀ e ∈ es, Whole e)
    (hd : Along (step stableUrl opts) (Declares stableUrl) r es) :
    Everywhere (step stableUrl opts) (fun t => InitsFit stableUrl t.spliced) r es := by
  have hwhole : Along (step stableUrl opts) (fun _ e => Whole e) r es := along_of_forall hes
  have hP := hwhole.and hd
  refine everywhere_of_along (J := Ready stableUrl) (fun t ht => ht.inits)
    (fun t e t' ht he hstep => step_ready ht he.1 he.2 hstep) ?_ hP
  have hnone : ∀ c, r.ctrl = some c → False := by
    intro c h
    rw [hc] at h
    cases h
  have hsome : ¬ r.ctrl.isSome = true := by
    rw [hc]
    exact Bool.false_ne_true
  refine ⟨⟨fun _ h => (hsome h).elim, ?_, fun t ht => ?_, fun c h => (hnone c h).elim,
    fun h => (hsome h).elim⟩, ?_, fun h => (hsome h).elim, fun t ht => ?_⟩
  · rw [hl]
    exact List.Pairwise.nil
  · rw [hs] at ht
    cases ht
  · rw [hl]
    exact InitsFit.nil stableUrl
  · rw [hs] at ht
    cases ht

/-! ## Three ways to the wrong one, and one to the right one -/

def mapSegment (url : String) (seq : Nat) : Segment := { url, seq, isMap := true }

def mediaSegment (seq : Nat) : Segment := { url := "https://h/s.m4s", seq }

def mapOptions : LiveOptions where
  conn := 8
  stallTimeout := 60000
  reloadInterval := 1000

/-- The first initialisation segment is declared again behind another one. -/
def declaredAgain : List LiveEvent :=
  [.start
      { source := "https://h/l.m3u8", init := some (mapSegment "https://h/a.mp4" 1),
        segments := [mediaSegment 1, mapSegment "https://h/b.mp4" 2, mediaSegment 2,
          mapSegment "https://h/a.mp4" 3, mediaSegment 3] },
    .turn true, .loaded .leadingMap [0], .loaded (.map 2) [0], .loaded (.seg 1) [1],
    .loaded (.seg 2) [2], .loaded (.seg 3) [3], .turn true]

/-- The window slides over the number that the second one is bound to. -/
def slidOver : List LiveEvent :=
  [.start
      { source := "https://h/l.m3u8", init := some (mapSegment "https://h/a.mp4" 1),
        segments := [mediaSegment 1, mapSegment "https://h/b.mp4" 2, mediaSegment 2] },
    .wait 1000, .turn true, .loadFailed (.seg 1), .loadFailed (.seg 2), .loaded .leadingMap [0],
    .snapshot
      { source := "https://h/l.m3u8", init := some (mapSegment "https://h/b.mp4" 3),
        segments := [mediaSegment 3] },
    .turn true, .loaded (.seg 3) [3], .turn true]

/-- The recording goes on behind the second one, in a window that begins with the first. -/
def resumedBehind : List LiveEvent :=
  let plan : PlaylistPlan :=
    { source := "https://h/l.m3u8", init := some (mapSegment "https://h/a.mp4" 1),
      segments := [mediaSegment 1, mapSegment "https://h/b.mp4" 2, mediaSegment 2,
        mediaSegment 3] }
  [.start plan, .turn true, .loaded .leadingMap [0], .loaded (.map 2) [0], .loaded (.seg 1) [1],
    .loaded (.seg 2) [2], .turn true, .cancel, .close true, .start plan, .turn true,
    .loaded .leadingMap [0], .loaded (.seg 3) [3], .turn true]

theorem wrong_inits :
    (∃ r, run (step id mapOptions) {} declaredAgain = some r ∧ ¬ InitsFit id r.spliced) ∧
      (∃ r, run (step id mapOptions) {} slidOver = some r ∧ ¬ InitsFit id r.spliced) ∧
      ∃ r, run (step id mapOptions) {} resumedBehind = some r ∧ ¬ InitsFit id r.spliced := by
  refine ⟨⟨_, rfl, fun h => ?_⟩, ⟨_, rfl, fun h => ?_⟩, ⟨_, rfl, fun h => ?_⟩⟩
  · exact absurd (h.last 4 rfl rfl) (by decide)
  · exact absurd (h.last 1 rfl rfl) (by decide)
  · exact absurd (h.last 5 rfl rfl) (by decide)

/-- Two initialisation segments, each declared where it is bound, and a pause between them. -/
def mapsInOrder : List LiveEvent :=
  [.start
      { source := "https://h/l.m3u8", init := some (mapSegment "https://h/a.mp4" 1),
        segments := [mediaSegment 1, mediaSegment 2] },
    .turn true, .loaded .leadingMap [0], .loaded (.seg 1) [1], .turn true, .cancel, .close true,
    .start
      { source := "https://h/l.m3u8", init := some (mapSegment "https://h/a.mp4" 1),
        segments := [mediaSegment 1, mediaSegment 2, mapSegment "https://h/b.mp4" 3,
          mediaSegment 3] },
    .turn true, .loaded (.seg 2) [2], .loaded (.map 3) [0], .loaded (.seg 3) [3], .wait 1000,
    .turn true,
    .snapshot
      { source := "https://h/l.m3u8", init := some (mapSegment "https://h/b.mp4" 4),
        segments := [mediaSegment 4] },
    .turn true, .loaded (.seg 4) [4], .turn true]

theorem mapsInOrder_fit :
    Everywhere (step id mapOptions) (fun t => InitsFit id t.spliced) {} mapsInOrder :=
  inits_of_run rfl rfl rfl (by decide) (by decide)

end Recording

end XferRust.Playlist
