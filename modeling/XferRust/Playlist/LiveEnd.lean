import XferRust.Playlist.Recorder

/-! # The end of a live recording

When the stream is over and nothing is queued or being loaded, no event comes any more but the
passing of time: the loop has to be left by its own tests, either because the head is past the
window or because a segment at the head has failed.  A number that is missing from the queue at
the head is neither, and the head moves over it only when a later window starts behind it.
-/
namespace XferRust.Playlist

open StepRun

namespace LiveState

/-- No number is missing between the head and the tail of the window, or before a segment in the
queue. -/
def Whole (s : LiveState) : Prop :=
  ∀ top ∈ s.winTail :: s.segs.keys, ∀ n ≤ top, s.headSeq ≤ n → (s.segs.find? n).isSome = true

instance (s : LiveState) : Decidable s.Whole :=
  inferInstanceAs (Decidable (∀ top ∈ _, ∀ n ≤ top, s.headSeq ≤ n → _))

/-- A snapshot with the given first and last segments fills the queue: every number that the head
does not go past, up to the last that is expected, is in the queue and outlives the sliding of the
window, or it is in the snapshot. -/
def Gapless (s : LiveState) (plan : PlaylistPlan) (first last : Segment) : Prop :=
  ∀ top ∈ max s.winTail last.seq ::
      (s.segs.keys.filter (s.survives first.seq) ++ plan.media.map (·.seq)),
    ∀ n ≤ top, s.headSeq ≤ n → s.Stays first.seq n →
      s.survives first.seq n = true ∨ n ∈ plan.media.map (·.seq)

instance (s : LiveState) (plan : PlaylistPlan) (first last : Segment) :
    Decidable (s.Gapless plan first last) :=
  inferInstanceAs (Decidable (∀ top ∈ _, ∀ n ≤ top, s.headSeq ≤ n → s.Stays first.seq n → _ ∨ _))

/-- The same of a snapshot that has segments. -/
def Fills (s : LiveState) (plan : PlaylistPlan) : Prop :=
  ∀ first ∈ plan.segments.head?, ∀ last ∈ plan.segments.getLast?, s.Gapless plan first last

instance (s : LiveState) (plan : PlaylistPlan) : Decidable (s.Fills plan) :=
  inferInstanceAs (Decidable (∀ first ∈ plan.segments.head?, ∀ last ∈ plan.segments.getLast?,
    s.Gapless plan first last))

/-- Nothing in the queue is behind the head. -/
def Ordered (s : LiveState) : Prop := ∀ n, (s.segs.find? n).isSome = true → s.headSeq ≤ n

variable {s s' : LiveState}

theorem Applied.ordered {plan : PlaylistPlan} {first last : Segment}
    (h : Applied s plan first last s') (hs : s.Ordered) : s'.Ordered := by
  intro n hn
  rcases Nat.lt_or_ge n s.headSeq with hlt | hge
  · exact absurd (hs n ((h.behind n hlt).mp hn)) (Nat.not_le.mpr hlt)
  · rcases (h.ahead n hge).mp hn with hsurv | hnew
    · exact (h.stays n hge).mpr (.inr ⟨n, Nat.le_refl n, hge, hsurv⟩)
    · exact hnew.1

theorem Applied.whole {plan : PlaylistPlan} {first last : Segment}
    (h : Applied s plan first last s') (hg : s.Gapless plan first last) : s'.Whole := by
  intro top htop n hn hhead
  have hlo : s.headSeq ≤ n := Nat.le_trans h.head_le hhead
  have htop' : top ∈ max s.winTail last.seq ::
      (s.segs.keys.filter (s.survives first.seq) ++ plan.media.map (·.seq)) := by
    rcases List.mem_cons.mp htop with rfl | hkey
    · exact List.mem_cons.mpr (.inl h.winTail)
    · refine List.mem_cons_of_mem _ (List.mem_append.mpr ?_)
      have htlo : s.headSeq ≤ top := Nat.le_trans hlo hn
      rcases (h.ahead top htlo).mp (SortedMap.find?_isSome.mpr hkey) with hsurv | ⟨-, seg, hseg, hq⟩
      · refine .inl (List.mem_filter.mpr ⟨SortedMap.find?_isSome.mp ?_, hsurv⟩)
        rw [survives] at hsurv
        cases hf : s.segs.find? top with
        | none =>
          rw [hf] at hsurv
          cases hsurv
        | some it => rfl
      · exact .inr (List.mem_map.mpr ⟨seg, hseg, hq⟩)
  have hcov := hg top htop' n hn hlo ((h.stays n hlo).mp hhead)
  refine (h.ahead n hlo).mpr (hcov.imp_right fun hmem => ?_)
  obtain ⟨seg, hseg, hq⟩ := List.mem_map.mp hmem
  exact ⟨hhead, seg, hseg, hq⟩

/-- Everything in the queue is there or has failed. -/
def Settled (s : LiveState) : Prop :=
  (∀ m ∈ s.leadingMap, m.isSettled = true) ∧ (∀ e ∈ s.maps.entries, e.2.isSettled = true) ∧
    ∀ e ∈ s.segs.entries, e.2.isSettled = true

instance (s : LiveState) : Decidable s.Settled :=
  inferInstanceAs (Decidable ((∀ m ∈ s.leadingMap, _) ∧ (∀ e ∈ _, _) ∧ ∀ e ∈ _, _))

/-- Two queues of the same numbers, with the head and the tail at the same place. -/
structure SameNumbers (s s' : LiveState) : Prop where
  headSeq : s'.headSeq = s.headSeq
  winTail : s'.winTail = s.winTail
  streamEnd : s'.streamEnd = s.streamEnd
  reloadStopped : s'.reloadStopped = s.reloadStopped
  mem : ∀ n, (s'.segs.find? n).isSome = true ↔ (s.segs.find? n).isSome = true

theorem SameNumbers.whole (h : SameNumbers s s') (hs : s.Whole) : s'.Whole := by
  intro top htop n hn hhead
  rw [h.headSeq] at hhead
  refine (h.mem n).mpr (hs top ?_ n hn hhead)
  rcases List.mem_cons.mp htop with rfl | hkey
  · exact List.mem_cons.mpr (.inl h.winTail)
  · refine List.mem_cons_of_mem _ (SortedMap.find?_isSome.mp ?_)
    exact (h.mem top).mp (SortedMap.find?_isSome.mpr hkey)

theorem SameNumbers.ordered (h : SameNumbers s s') (hs : s.Ordered) : s'.Ordered := by
  intro n hn
  rw [h.headSeq]
  exact hs n ((h.mem n).mp hn)

theorem onItem_same (s : LiveState) (key : LiveKey) (f : LiveItem → LiveItem) :
    SameNumbers s (s.onItem key f) := by
  cases key with
  | leadingMap => exact ⟨rfl, rfl, rfl, rfl, fun _ => Iff.rfl⟩
  | map seq => exact ⟨rfl, rfl, rfl, rfl, fun _ => Iff.rfl⟩
  | seg seq =>
    refine ⟨rfl, rfl, rfl, rfl, fun n => ?_⟩
    have hfind : (s.onItem (.seg seq) f).segs.find? n =
        if n = seq then (s.segs.find? n).map f else s.segs.find? n := SortedMap.find?_adjust ..
    rw [hfind]
    split
    · rw [Option.isSome_map]
    · rfl

section
variable {stableUrl : String → String} {s s' : LiveState} {key : LiveKey} {it : LiveItem}

theorem spliceOne_streamEnd (h : s.spliceOne stableUrl = some (key, it, s')) :
    s'.streamEnd = s.streamEnd ∧ s'.reloadStopped = s.reloadStopped := by
  obtain ⟨-, ⟨-, -, rfl⟩ | ⟨-, -, -, rfl⟩ | ⟨-, -, -, -, rfl⟩⟩ := spliceOne_cases stableUrl h
  · exact ⟨rfl, rfl⟩
  · exact ⟨rfl, rfl⟩
  · exact ⟨rfl, rfl⟩

theorem spliceOne_ordered (h : s.spliceOne stableUrl = some (key, it, s')) (hs : s.Ordered) :
    s'.Ordered := by
  obtain ⟨-, ⟨-, -, rfl⟩ | ⟨-, -, -, rfl⟩ | ⟨-, -, -, -, rfl⟩⟩ := spliceOne_cases stableUrl h
  · exact hs
  · exact hs
  · intro n hn
    dsimp only at hn ⊢
    rw [SortedMap.find?_erase] at hn
    split at hn
    · cases hn
    · have := hs n hn
      omega

theorem spliceOne_whole (h : s.spliceOne stableUrl = some (key, it, s')) (hs : s.Whole) :
    s'.Whole := by
  obtain ⟨-, ⟨-, -, rfl⟩ | ⟨-, -, -, rfl⟩ | ⟨-, -, -, -, rfl⟩⟩ := spliceOne_cases stableUrl h
  · exact hs
  · exact hs
  · intro top htop n hn hhead
    dsimp only at htop hhead ⊢
    rw [SortedMap.find?_erase, if_neg (by omega)]
    refine hs top ?_ n hn (by omega)
    rcases List.mem_cons.mp htop with rfl | hkey
    · exact List.mem_cons_self
    · obtain ⟨v, hv⟩ := SortedMap.mem_keys.mp hkey
      exact List.mem_cons_of_mem _ (SortedMap.mem_keys.mpr ⟨v, (SortedMap.mem_erase.mp hv).1⟩)

theorem spliceOne_settled (h : s.spliceOne stableUrl = some (key, it, s')) (hs : s.Settled) :
    s'.Settled := by
  obtain ⟨hlead, hmaps, hsegs⟩ := hs
  obtain ⟨-, ⟨-, -, rfl⟩ | ⟨-, -, -, rfl⟩ | ⟨-, -, -, -, rfl⟩⟩ := spliceOne_cases stableUrl h
  · exact ⟨fun m hm => (by cases hm), hmaps, hsegs⟩
  · exact ⟨hlead, fun e he => hmaps e (SortedMap.mem_erase.mp he).1, hsegs⟩
  · exact ⟨hlead, hmaps, fun e he => hsegs e (SortedMap.mem_erase.mp he).1⟩

theorem kept_spliceOne (h : s.spliceOne stableUrl = some (key, it, s')) :
    Recording.kept s' < Recording.kept s := by
  have herase : ∀ (m : SortedMap Nat LiveItem) (k : Nat) (it : LiveItem), m.find? k = some it →
      (m.erase k).entries.length < m.entries.length := by
    intro m k it hit
    refine List.length_filter_lt_length_iff_exists.mpr ⟨(k, it), SortedMap.find?_eq_some.mp hit, ?_⟩
    simp
  obtain ⟨-, ⟨-, hlead, rfl⟩ | ⟨-, -, hmap, rfl⟩ | ⟨-, -, -, hseg, rfl⟩⟩ :=
    spliceOne_cases stableUrl h
  · simp [Recording.kept, hlead]
  · have := herase s.maps s.headSeq it hmap
    simp only [Recording.kept]
    omega
  · have := herase s.segs s.headSeq it hseg
    simp only [Recording.kept]
    omega

/-- **A queue without gaps ends the recording**: when nothing is queued or being loaded and nothing
can be spliced, the head is past the window, or something at the head has failed. -/
theorem drained_or_blocked (hwhole : s.Whole) (hset : s.Settled)
    (hnone : s.spliceOne stableUrl = none) : s.drained = true ∨ s.blockedFailed = true := by
  have hfailed : ∀ it : LiveItem, it.isSettled = true → it.state ≠ .done → it.state = .failed := by
    intro it hit hdone
    rw [LiveItem.isSettled] at hit
    split at hit
    · rename_i h
      exact absurd h hdone
    · rename_i h
      exact h
    · cases hit
    · cases hit
  obtain ⟨hlead, hmaps, hsegs⟩ := hset
  rw [drained, blockedFailed]
  rcases spliceOne_none stableUrl hnone with ⟨m, hm, hdone⟩ | ⟨hl, ⟨m, hm, hdone⟩ | ⟨hm, hrest⟩⟩
  · right
    simp [hm, hfailed m (hlead m hm) hdone]
  · right
    simp [hm, hfailed m (hmaps _ (SortedMap.find?_eq_some.mp hm)) hdone]
  · rcases hrest with ⟨it, hit, hdone⟩ | hit
    · right
      simp [hit, hfailed it (hsegs _ (SortedMap.find?_eq_some.mp hit)) hdone]
    · left
      have htail : s.winTail < s.headSeq := by
        refine Nat.not_le.mp fun hle => ?_
        have := hwhole s.winTail List.mem_cons_self s.headSeq hle (Nat.le_refl _)
        rw [hit] at this
        cases this
      simp [hl, hm, hit, htail]

theorem nextDue_settled (hset : s.Settled) (now : Nat) : s.nextDue now = none := by
  have hdue : ∀ it : LiveItem, it.isSettled = true → it.isDue now = false := by
    intro it hit
    rw [LiveItem.isSettled] at hit
    rw [LiveItem.isDue]
    split at hit
    · rename_i h
      rw [h]
    · rename_i h
      rw [h]
    · cases hit
    · cases hit
  obtain ⟨hlead, hmaps, hsegs⟩ := hset
  have hm : s.maps.entries.find? (fun e => e.2.isDue now) = none :=
    List.find?_eq_none.mpr fun e he => by rw [hdue _ (hmaps e he)]; exact Bool.false_ne_true
  have hs : s.segs.entries.find? (fun e => e.2.isDue now) = none :=
    List.find?_eq_none.mpr fun e he => by rw [hdue _ (hsegs e he)]; exact Bool.false_ne_true
  rw [nextDue, hm, hs]
  cases hl : s.leadingMap with
  | none => rfl
  | some m =>
    have := hdue m (hlead m hl)
    simp [this]

end

end LiveState

/-! ## The last turns of the loop -/

namespace Recording

section
variable (stableUrl : String → String) (opts : LiveOptions)

/-- **How the loop is to be left**: at the end of the stream or with an error; and each segment
that was there before is in the product, unless the loop is left with an error and no number is
missing between the head and the segment. -/
def Left (before : LiveState) (r : Recording) : Prop :=
  ∃ s ∈ r.session, (s.exit = some .ended ∨ s.exit = some .failed) ∧
    ∀ n it, before.segs.find? n = some it → it.state = .done →
      (∃ x ∈ r.spliced, x.key = .seg n) ∨
        s.exit = some .failed ∧ ∀ m ≤ n, s.live.headSeq ≤ m → (s.live.segs.find? m).isSome = true

/-- However long the loop waits between its turns, and whatever becomes of the saves, it is left
after finitely many turns. -/
inductive Leaves (before : LiveState) : Recording → Prop where
  | now {r : Recording} (h : Left before r) : Leaves before r
  | later {r : Recording}
      (can : ∀ ms flushed, (run (step stableUrl opts) r [.wait ms, .turn flushed]).isSome = true)
      (next : ∀ ms flushed r', run (step stableUrl opts) r [.wait ms, .turn flushed] = some r' →
        Leaves before r') : Leaves before r

end

/-- The loop goes on, and nothing is to come but the passing of time. -/
structure Resting (before : LiveState) (r : Recording) (s : Session) : Prop where
  streamEnd : s.live.streamEnd = true
  settled : s.live.Settled
  whole : s.live.Whole
  ordered : s.live.Ordered
  inflight : s.inflight = []
  exit : s.exit = none
  there : ∀ n it, before.segs.find? n = some it → it.state = .done →
    (∃ x ∈ r.spliced, x.key = .seg n) ∨ (s.live.segs.find? n).isSome = true

namespace Resting

variable {stableUrl : String → String} {opts : LiveOptions} {before : LiveState} {r r' : Recording}
  {s s' : Session}

theorem spliceOne {bytes : Nat} (h : Resting before r s)
    (hone : r.spliceOne stableUrl s = some (r', s', bytes)) :
    Resting before r' s' ∧ kept s'.live < kept s.live := by
  rw [Recording.spliceOne, Option.map_eq_some_iff] at hone
  obtain ⟨⟨key, it, live⟩, hlive, heq⟩ := hone
  obtain ⟨rfl, rfl, rfl⟩ := heq
  refine ⟨⟨?_, LiveState.spliceOne_settled hlive h.settled, LiveState.spliceOne_whole hlive h.whole,
    LiveState.spliceOne_ordered hlive h.ordered, h.inflight, h.exit, fun n it' hn hdone => ?_⟩,
    LiveState.kept_spliceOne hlive⟩
  · exact (LiveState.spliceOne_streamEnd hlive).1.trans h.streamEnd
  · rcases h.there n it' hn hdone with ⟨x, hx, hkey⟩ | hsome
    · exact .inl ⟨x, List.mem_append_left _ hx, hkey⟩
    · obtain ⟨-, ⟨-, -, rfl⟩ | ⟨-, -, -, rfl⟩ | ⟨rfl, -, -, -, rfl⟩⟩ :=
        LiveState.spliceOne_cases stableUrl hlive
      · exact .inr hsome
      · exact .inr hsome
      · by_cases hhead : n = s.live.headSeq
        · exact .inl ⟨_, List.mem_append_right _ (List.mem_singleton.mpr rfl), hhead ▸ rfl⟩
        · refine .inr ?_
          dsimp only
          rw [SortedMap.find?_erase, if_neg hhead]
          exact hsome

theorem spliceBatch {rounds moved : Nat} (h : Resting before r s) (hrounds : kept s.live < rounds)
    (heq : Recording.spliceBatch stableUrl rounds r s moved = (r', s')) :
    Resting before r' s' ∧
      (s'.live.spliceOne stableUrl = none ∨ kept s'.live < kept s.live) := by
  induction rounds generalizing r s moved with
  | zero => exact absurd hrounds (Nat.not_lt_zero _)
  | succ rounds ih =>
    rw [Recording.spliceBatch] at heq
    cases hone : r.spliceOne stableUrl s with
    | none =>
      rw [hone] at heq
      obtain ⟨rfl, rfl⟩ := heq
      refine ⟨h, .inl ?_⟩
      rw [Recording.spliceOne, Option.map_eq_none_iff] at hone
      exact hone
    | some out =>
      obtain ⟨r1, s1, bytes⟩ := out
      rw [hone] at heq
      dsimp only at heq
      obtain ⟨h1, hlt⟩ := h.spliceOne hone
      split at heq
      · obtain ⟨rfl, rfl⟩ := heq
        exact ⟨h1, .inr hlt⟩
      · obtain ⟨h2, hor⟩ := ih h1 (by omega) heq
        exact ⟨h2, hor.imp_right fun h => Nat.lt_trans h hlt⟩

theorem saveDue {flushed : Bool} (h : Resting before r s)
    (heq : r.saveDue s flushed = (r', s')) : Resting before r' s' ∧ s'.live = s.live := by
  rw [Recording.saveDue] at heq
  split at heq
  · cases flushed with
    | true =>
      obtain ⟨rfl, rfl⟩ := heq
      exact ⟨⟨h.streamEnd, h.settled, h.whole, h.ordered, h.inflight, h.exit, h.there⟩, rfl⟩
    | false =>
      obtain ⟨rfl, rfl⟩ := heq
      exact ⟨⟨h.streamEnd, h.settled, h.whole, h.ordered, h.inflight, h.exit, h.there⟩, rfl⟩
  · obtain ⟨rfl, rfl⟩ := heq
    exact ⟨h, rfl⟩

theorem dispatch (h : Resting before r s) (now room : Nat) : Recording.dispatch now room s = s := by
  cases room with
  | zero => rfl
  | succ room =>
    rw [Recording.dispatch, LiveState.takeForDispatch, LiveState.nextDue_settled h.settled]
    rfl

/-- What the tests leave the loop with. -/
theorem exitTest {now : Nat} {e : LiveExit} (h : Resting before r s)
    (he : Recording.exitTest opts now s = some e) :
    Left before { r with session := some { s with exit := some e } } := by
  rw [Recording.exitTest] at he
  refine ⟨_, rfl, ?_⟩
  split at he
  · rename_i hend
    obtain rfl := Option.some.inj he
    refine ⟨.inl rfl, fun n it hn hdone => ?_⟩
    rcases h.there n it hn hdone with hx | hsome
    · exact .inl hx
    · exfalso
      simp only [LiveState.drained, Bool.and_eq_true, Option.isNone_iff_eq_none] at hend
      have hhead := h.whole n (List.mem_cons_of_mem _ (SortedMap.find?_isSome.mp hsome))
        s.live.headSeq (h.ordered n hsome) (Nat.le_refl _)
      rw [hend.2.1.2] at hhead
      cases hhead
  · split at he
    · obtain rfl := Option.some.inj he
      refine ⟨.inr rfl, fun n it hn hdone => ?_⟩
      rcases h.there n it hn hdone with hx | hsome
      · exact .inl hx
      · exact .inr ⟨rfl, fun m hm hhead =>
          h.whole n (List.mem_cons_of_mem _ (SortedMap.find?_isSome.mp hsome)) m hm hhead⟩
    · rw [h.streamEnd] at he
      simp at he

/-- When the tests go on, something can be spliced. -/
theorem exitTest_none {now : Nat} (h : Resting before r s)
    (he : Recording.exitTest opts now s = none) : s.live.spliceOne stableUrl ≠ none := by
  intro hnone
  rw [Recording.exitTest, h.streamEnd, h.inflight] at he
  rcases LiveState.drained_or_blocked h.whole h.settled hnone with hd | hb
  · simp [hd] at he
  · rw [hb] at he
    cases hd : s.live.drained <;> simp [hd] at he

theorem askSnapshot (h : Resting before r s) (now : Nat) (r' : Recording)
    (hr : r'.spliced = r.spliced) :
    Resting before r' (Recording.askSnapshot now s) ∧
      (Recording.askSnapshot now s).live = s.live := by
  rw [Recording.askSnapshot]
  split
  · exact ⟨⟨h.streamEnd, h.settled, h.whole, h.ordered, h.inflight, h.exit, hr ▸ h.there⟩, rfl⟩
  · exact ⟨⟨h.streamEnd, h.settled, h.whole, h.ordered, h.inflight, h.exit, hr ▸ h.there⟩, rfl⟩

/-- **A turn leaves the loop or splices something.** -/
theorem turn (h : Resting before r s) (flushed : Bool) :
    Left before (r.turn stableUrl opts s flushed) ∨
      ∃ s', (r.turn stableUrl opts s flushed).session = some s' ∧
        Resting before (r.turn stableUrl opts s flushed) s' ∧ kept s'.live < kept s.live := by
  rw [Recording.turn]
  rcases hb : Recording.spliceBatch stableUrl (kept s.live + 1) r s 0 with ⟨r1, s1⟩
  dsimp only
  rcases hsave : r1.saveDue s1 flushed with ⟨r2, s2⟩
  obtain ⟨h1, hor⟩ := h.spliceBatch (Nat.lt_succ_self _) hb
  obtain ⟨h2, hlive⟩ := h1.saveDue hsave
  dsimp only
  rw [h2.dispatch]
  cases he : Recording.exitTest opts r2.now s2 with
  | some e => exact .inl (h2.exitTest he)
  | none =>
    have hlt : kept s1.live < kept s.live :=
      hor.resolve_left (hlive ▸ @exitTest_none stableUrl _ _ _ _ _ h2 he)
    obtain ⟨h3, hlive3⟩ := h2.askSnapshot r2.now
      { r2 with session := some (Recording.askSnapshot r2.now s2) } rfl
    refine .inr ⟨_, rfl, h3, ?_⟩
    rw [hlive3, hlive]
    exact hlt

theorem leaves (h : Resting before r s) (hs : r.session = some s) :
    Leaves stableUrl opts before r := by
  induction hk : kept s.live using Nat.strongRecOn generalizing r s with
  | ind k ih =>
    have hrun : ∀ ms flushed, run (step stableUrl opts) r [.wait ms, .turn flushed] =
        some ({ r with now := r.now + ms }.turn stableUrl opts s flushed) := by
      intro ms flushed
      simp [run_cons, step, hs, h.exit, onSession]
    refine .later (fun ms flushed => by rw [hrun]; rfl) fun ms flushed r' hr' => ?_
    rw [hrun] at hr'
    obtain rfl := Option.some.inj hr'
    have hw : Resting before { r with now := r.now + ms } s :=
      ⟨h.streamEnd, h.settled, h.whole, h.ordered, h.inflight, h.exit, h.there⟩
    rcases @turn stableUrl opts _ _ _ hw flushed with hleft | ⟨s', hs', h', hlt⟩
    · exact .now hleft
    · exact ih (kept s'.live) (hk ▸ hlt) h' hs' rfl

end Resting

/-! ## Every run -/

/-- What holds of a session in the loop when no snapshot ends the stream with a gap. -/
structure Steady (s : Session) : Prop where
  ordered : s.live.Ordered
  stopped : s.live.streamEnd = true → s.live.reloadStopped = true ∧ s.reloadInflight = false
  whole : s.live.streamEnd = true → s.live.Whole

namespace Steady

variable {stableUrl : String → String} {opts : LiveOptions} {r r' : Recording} {s s' : Session}

theorem spliceOne {bytes : Nat} (h : Steady s)
    (hone : r.spliceOne stableUrl s = some (r', s', bytes)) : Steady s' := by
  rw [Recording.spliceOne, Option.map_eq_some_iff] at hone
  obtain ⟨⟨key, it, live⟩, hlive, heq⟩ := hone
  obtain ⟨rfl, rfl, rfl⟩ := heq
  obtain ⟨hend, hstop⟩ := LiveState.spliceOne_streamEnd hlive
  refine ⟨LiveState.spliceOne_ordered hlive h.ordered, fun he => ?_, fun he => ?_⟩
  · obtain ⟨h1, h2⟩ := h.stopped (hend.symm.trans he)
    exact ⟨hstop.trans h1, h2⟩
  · exact LiveState.spliceOne_whole hlive (h.whole (hend.symm.trans he))

theorem spliceBatch {rounds moved : Nat} (h : Steady s)
    (heq : Recording.spliceBatch stableUrl rounds r s moved = (r', s')) : Steady s' := by
  induction rounds generalizing r s moved with
  | zero =>
    obtain ⟨rfl, rfl⟩ := heq
    exact h
  | succ rounds ih =>
    rw [Recording.spliceBatch] at heq
    cases hone : r.spliceOne stableUrl s with
    | none =>
      rw [hone] at heq
      obtain ⟨rfl, rfl⟩ := heq
      exact h
    | some out =>
      obtain ⟨r1, s1, bytes⟩ := out
      rw [hone] at heq
      dsimp only at heq
      split at heq
      · obtain ⟨rfl, rfl⟩ := heq
        exact h.spliceOne hone
      · exact ih (h.spliceOne hone) heq

/-- The queue has the same numbers, and no snapshot is asked for at the end of the stream. -/
theorem same (h : Steady s) (hsame : LiveState.SameNumbers s.live s'.live)
    (hask : s'.live.reloadStopped = true → s.reloadInflight = false → s'.reloadInflight = false) :
    Steady s' := by
  refine ⟨hsame.ordered h.ordered, fun he => ?_, fun he => ?_⟩
  · obtain ⟨h1, h2⟩ := h.stopped (hsame.streamEnd.symm.trans he)
    have hstop := hsame.reloadStopped.trans h1
    exact ⟨hstop, hask hstop h2⟩
  · exact hsame.whole (h.whole (hsame.streamEnd.symm.trans he))

theorem saveDue {flushed : Bool} (h : Steady s) (heq : r.saveDue s flushed = (r', s')) :
    Steady s' := by
  have hsame : LiveState.SameNumbers s.live s.live := ⟨rfl, rfl, rfl, rfl, fun _ => Iff.rfl⟩
  rw [Recording.saveDue] at heq
  split at heq
  · cases flushed with
    | true =>
      obtain ⟨rfl, rfl⟩ := heq
      exact h.same hsame fun _ => id
    | false =>
      obtain ⟨rfl, rfl⟩ := heq
      exact h.same hsame fun _ => id
  · obtain ⟨rfl, rfl⟩ := heq
    exact h

theorem dispatch (now room : Nat) (h : Steady s) : Steady (Recording.dispatch now room s) := by
  induction room generalizing s with
  | zero => exact h
  | succ room ih =>
    rw [Recording.dispatch]
    cases htake : s.live.takeForDispatch now with
    | none => exact h
    | some out =>
      obtain ⟨key, live⟩ := out
      rw [LiveState.takeForDispatch, Option.map_eq_some_iff] at htake
      obtain ⟨key', -, heq⟩ := htake
      obtain ⟨rfl, rfl⟩ := heq
      exact ih (h.same (LiveState.onItem_same s.live _ _) fun _ => id)

theorem askSnapshot (now : Nat) (h : Steady s) : Steady (Recording.askSnapshot now s) := by
  rw [Recording.askSnapshot]
  split
  · rename_i hask
    refine h.same ⟨rfl, rfl, rfl, rfl, fun _ => Iff.rfl⟩ fun hstop _ => ?_
    exact absurd (hask.2.1.symm.trans hstop) Bool.false_ne_true
  · exact h

/-- A snapshot that is taken in. -/
theorem apply {live : LiveState} {plan : PlaylistPlan} {now : Nat} (hord : live.Ordered)
    (hend : live.streamEnd = false) (hfill : plan.live = false → live.Fills plan)
    (hlive : s'.live = live.apply stableUrl plan now) (hask : s'.reloadInflight = false) :
    Steady s' := by
  rcases LiveState.apply_cases stableUrl live plan now with
    ⟨-, hsame⟩ | ⟨first, last, hf, hl, happ⟩
  · rw [hsame] at hlive
    refine ⟨hlive ▸ hord, fun he => ?_, fun he => ?_⟩
    · rw [hlive, hend] at he
      cases he
    · rw [hlive, hend] at he
      cases he
  · rw [← hlive] at happ
    have hstop : s'.live.streamEnd = true → plan.live = false := by
      intro he
      rw [happ.streamEnd, hend, Bool.false_or, Bool.not_eq_true'] at he
      exact he
    refine ⟨happ.ordered hord, fun he => ⟨?_, hask⟩, fun he => ?_⟩
    · rw [happ.reloadStopped, hstop he]
      simp
    · exact happ.whole (hfill (hstop he) first hf last hl)

end Steady

section
variable (stableUrl : String → String) (opts : LiveOptions)

/-- What leaves no gap at the end: a snapshot that ends the stream fills the queue up to the last
number, and so is the queue full when the playlist is gone for good. -/
def Complete (r : Recording) : LiveEvent → Prop
  | .start plan =>
    plan.live = false → (startLive (r.resume stableUrl plan) plan r.now).Fills plan
  | .snapshot plan =>
    ∀ s ∈ r.session, plan.live = false → plan.partsOnly = false → s.live.Fills plan
  | .snapshotFailed gone =>
    ∀ s ∈ r.session, gone = true → liveGoneLimit ≤ s.live.goneStreak + 1 → s.live.Whole
  | _ => True

instance decidableComplete (r : Recording) (e : LiveEvent) : Decidable (r.Complete stableUrl e) := by
  cases e with
  | start plan =>
    exact inferInstanceAs (Decidable (plan.live = false → LiveState.Fills _ plan))
  | snapshot plan =>
    exact inferInstanceAs (Decidable (∀ s ∈ r.session, plan.live = false → _ → s.live.Fills plan))
  | snapshotFailed gone =>
    exact inferInstanceAs (Decidable (∀ s ∈ r.session, gone = true → _ → s.live.Whole))
  | _ => exact instDecidableTrue

/-- The recording is in the loop of a steady session, if it is in a loop at all. -/
def AllSteady (r : Recording) : Prop := ∀ s ∈ r.session, s.exit = none → Steady s

variable {stableUrl opts} {r r' : Recording}

theorem turn_steady {s : Session} {flushed : Bool} (h : Steady s) :
    (r.turn stableUrl opts s flushed).AllSteady := by
  intro s' hs' hexit
  rw [turn] at hs'
  rcases hb : spliceBatch stableUrl (kept s.live + 1) r s 0 with ⟨r1, s1⟩
  rw [hb] at hs'
  dsimp only at hs'
  rcases hsave : r1.saveDue s1 flushed with ⟨r2, s2⟩
  rw [hsave] at hs'
  dsimp only at hs'
  have h2 := ((h.spliceBatch hb).saveDue hsave).dispatch r2.now (opts.conn - s2.inflight.length)
  split at hs'
  · obtain rfl := Option.some.inj hs'
    cases hexit
  · obtain rfl := Option.some.inj hs'
    exact h2.askSnapshot r2.now

theorem start_steady {plan : PlaylistPlan} (hc : r.Complete stableUrl (.start plan)) :
    (r.start stableUrl opts plan).AllSteady := by
  intro s' hs' _
  obtain rfl := Option.some.inj hs'
  have hempty : (startLive (r.resume stableUrl plan) plan r.now).segs = .empty ∧
      (startLive (r.resume stableUrl plan) plan r.now).streamEnd = false := by
    cases r.resume stableUrl plan with
    | none => exact ⟨rfl, rfl⟩
    | some c => exact ⟨rfl, rfl⟩
  have hord : (startLive (r.resume stableUrl plan) plan r.now).Ordered := by
    intro n hn
    rw [hempty.1] at hn
    cases hn
  exact @Steady.apply stableUrl _ _ _ r.now hord hempty.2 hc rfl rfl

theorem onSession_steady {s : Session} {e : LiveEvent} (hs : r.session = some s) (h : Steady s)
    (hc : r.Complete stableUrl e) (hstep : r.onSession stableUrl opts s e = some r') :
    r'.AllSteady := by
  intro s' hs' hexit
  cases e with
  | turn flushed =>
    obtain rfl := Option.some.inj hstep
    exact turn_steady h s' hs' hexit
  | snapshot plan =>
    simp only [onSession] at hstep
    split at hstep
    · rename_i hask
      obtain rfl := Option.some.inj hstep
      obtain rfl := Option.some.inj hs'
      have hend : s.live.streamEnd = false := by
        rw [← Bool.not_eq_true]
        intro he
        exact absurd ((h.stopped he).2.symm.trans hask) Bool.false_ne_true
      dsimp only [LiveState.reloaded]
      split
      · refine h.same ⟨rfl, rfl, rfl, rfl, fun _ => Iff.rfl⟩ fun _ _ => rfl
      · rename_i hparts
        have hfill : plan.live = false → s.live.Fills plan :=
          fun hl => hc s hs hl (Bool.not_eq_true _ ▸ hparts)
        refine @Steady.apply stableUrl _
          { s.live with failStreak := 0, goneStreak := 0, lastOkReload := r.now } _ r.now h.ordered
          hend hfill rfl rfl
    · cases hstep
  | snapshotFailed gone =>
    simp only [onSession] at hstep
    split at hstep
    · rename_i hask
      obtain rfl := Option.some.inj hstep
      obtain rfl := Option.some.inj hs'
      have hend : s.live.streamEnd = false := by
        rw [← Bool.not_eq_true]
        intro he
        exact absurd ((h.stopped he).2.symm.trans hask) Bool.false_ne_true
      dsimp only [LiveState.reloadFailed]
      split
      · rename_i hgone
        split
        · rename_i hlimit
          exact ⟨h.ordered, fun _ => ⟨rfl, rfl⟩, fun _ => hc s hs hgone hlimit⟩
        · exact h.same ⟨rfl, rfl, rfl, rfl, fun _ => Iff.rfl⟩ fun _ _ => rfl
      · exact h.same ⟨rfl, rfl, rfl, rfl, fun _ => Iff.rfl⟩ fun _ _ => rfl
    · cases hstep
  | loaded key data =>
    simp only [onSession] at hstep
    split at hstep
    · obtain rfl := Option.some.inj hstep
      obtain rfl := Option.some.inj hs'
      exact h.same (LiveState.onItem_same s.live key _) fun _ => id
    · cases hstep
  | loadFailed key =>
    simp only [onSession] at hstep
    split at hstep
    · obtain rfl := Option.some.inj hstep
      obtain rfl := Option.some.inj hs'
      exact h.same (LiveState.onItem_same s.live key _) fun _ => id
    · cases hstep
  | cancel =>
    obtain rfl := Option.some.inj hstep
    obtain rfl := Option.some.inj hs'
    cases hexit
  | spliceFailed bytes =>
    simp only [onSession, Option.map_eq_some_iff] at hstep
    obtain ⟨out, -, rfl⟩ := hstep
    obtain rfl := Option.some.inj hs'
    cases hexit
  | diskFailed =>
    obtain rfl := Option.some.inj hstep
    obtain rfl := Option.some.inj hs'
    cases hexit
  | start plan => cases hstep
  | wait ms => cases hstep
  | writeOut bytes => cases hstep
  | close flushed => cases hstep
  | kill => cases hstep

theorem close_session {s : Session} {e : LiveExit} {flushed : Bool} :
    (r.close s e flushed).session = none := by
  cases flushed with
  | true => cases e <;> rfl
  | false => rfl

theorem step_steady {e : LiveEvent} (h : r.AllSteady) (hc : r.Complete stableUrl e)
    (hstep : r.step stableUrl opts e = some r') : r'.AllSteady := by
  cases hs : r.session with
  | none =>
    cases e with
    | start plan =>
      simp only [step, hs] at hstep
      split at hstep
      · cases hstep
      · obtain rfl := Option.some.inj hstep
        exact start_steady hc
    | wait ms =>
      obtain rfl := Option.some.inj hstep
      exact h
    | kill =>
      obtain rfl := Option.some.inj hstep
      exact fun s' hs' => (by cases hs')
    | _ => simp [step, hs] at hstep
  | some s =>
    cases e with
    | start plan => simp [step, hs] at hstep
    | wait ms =>
      obtain rfl := Option.some.inj hstep
      exact h
    | kill =>
      obtain rfl := Option.some.inj hstep
      exact fun s' hs' => (by cases hs')
    | writeOut n =>
      simp only [step, hs] at hstep
      obtain rfl := Option.some.inj hstep
      intro s' hs' hexit
      obtain rfl := Option.some.inj hs'
      exact (h s hs hexit).same ⟨rfl, rfl, rfl, rfl, fun _ => Iff.rfl⟩ fun _ => id
    | close flushed =>
      simp only [step, hs, Option.map_eq_some_iff] at hstep
      obtain ⟨e, -, rfl⟩ := hstep
      intro s' hs'
      rw [close_session] at hs'
      cases hs'
    | _ =>
      simp only [step, hs] at hstep
      split at hstep
      · rename_i hexit
        exact onSession_steady hs (h s hs hexit) hc hstep
      · cases hstep

/-- **A recorder whose stream is over leaves its loop**: in every state of a run in which no
snapshot ends the stream with a gap, when the stream has ended and nothing is queued or being
loaded, the loop is left after finitely many turns, at the end or with an error, and no segment
that was there is left behind a missing number. -/
theorem leaves_of_run {es : List LiveEvent} (hs : r.session = none)
    (hc : Along (step stableUrl opts) (Complete stableUrl) r es) :
    Everywhere (step stableUrl opts)
      (fun t => ∀ s ∈ t.session, s.exit = none → s.live.streamEnd = true → s.live.Settled →
        s.inflight = [] → Leaves stableUrl opts s.live t) r es := by
  refine everywhere_of_along (J := AllSteady) (fun t ht s hst hexit hend hset hfl => ?_)
    (fun t e t' ht hce hstep => step_steady ht hce hstep) (fun s hs' => ?_) hc
  · have hsteady := ht s hst hexit
    refine Resting.leaves ⟨hend, hset, hsteady.whole hend, hsteady.ordered, hfl, hexit,
      fun n it hn _ => .inr ?_⟩ hst
    rw [hn]
    rfl
  · rw [hs] at hs'
    cases hs'

end

/-! ## A gap at the end, and none -/

/-- Three segments of two seconds; the middle one cannot be loaded. -/
def gapLines : List Line :=
  [.mediaSequence 5, .extinf 2000, .uri "https://h/5.ts", .extinf 2000, .gap, .uri "https://h/6.ts",
    .extinf 2000, .uri "https://h/7.ts"]

def gapPlan (ended : Bool) : PlaylistPlan :=
  (parseMedia "https://h/live.m3u8" (gapLines ++ if ended then [.endList] else [])).getD
    { segments := [] }

def gapOptions : LiveOptions where
  conn := 2
  stallTimeout := 60000
  reloadInterval := 1000

/-- Both segments are loaded, and the playlist ends. -/
def gapEvents : List LiveEvent :=
  [.start (gapPlan false), .turn true, .loaded (.seg 5) [5], .loaded (.seg 7) [7], .wait 1000,
    .turn true, .snapshot (gapPlan true), .turn true]

def gapEnd : Recording := (run (step id gapOptions) {} gapEvents).getD {}

theorem gapEnd_turn (now ms : Nat) (flushed : Bool) :
    run (step id gapOptions) { gapEnd with now } [.wait ms, .turn flushed] =
      some { gapEnd with now := now + ms } := rfl

theorem gapEnd_stays (before : LiveState) (now : Nat) :
    ¬ Leaves id gapOptions before { gapEnd with now } := by
  intro h
  generalize hr : ({ gapEnd with now } : Recording) = r at h
  induction h generalizing now with
  | now hleft =>
    obtain ⟨s, hs, hexit, -⟩ := hleft
    rw [← hr] at hs
    obtain rfl : _ = s := Option.some.inj hs
    rcases hexit with h | h
    · cases h
    · cases h
  | later can next ih =>
    refine ih 0 true _ ?_ (now + 0) rfl
    rw [← hr]
    exact gapEnd_turn now 0 true

/-- The segment behind the missing one is there, and the recorder waits forever. -/
theorem gap_never_left :
    ∃ s, run (step id gapOptions) {} gapEvents = some gapEnd ∧ gapEnd.session = some s ∧
      s.exit = none ∧ s.live.streamEnd = true ∧ s.live.Settled ∧ s.inflight = [] ∧
      ¬ Leaves id gapOptions s.live gapEnd :=
  ⟨_, rfl, rfl, rfl, rfl, by decide, rfl, gapEnd_stays _ gapEnd.now⟩

/-- The same segments when the window moves on before the stream ends. -/
def slidEvents : List LiveEvent :=
  [.start (gapPlan false), .turn true, .loaded (.seg 5) [5], .loaded (.seg 7) [7], .wait 1000,
    .turn true,
    .snapshot { segments := [{ url := "https://h/7.ts", seq := 7 }], live := false }, .turn true]

theorem slidEvents_leave :
    Everywhere (step id gapOptions)
      (fun t => ∀ s ∈ t.session, s.exit = none → s.live.streamEnd = true → s.live.Settled →
        s.inflight = [] → Leaves id gapOptions s.live t) {} slidEvents :=
  leaves_of_run rfl (by decide)

end Recording

end XferRust.Playlist
