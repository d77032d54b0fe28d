import XferRust.Playlist.Recorder

/-! # What the control file of a recording says

The product of a recording is what was spliced into it, one segment behind the other.  The head,
the count, the recorded time and the last initialisation segment of a session sum up what was
spliced so far; a saved control file sums up what had been spliced when it was saved, and a later
session goes on from there, with whatever snapshot it begins with.
-/
namespace XferRust.Playlist

open StepRun

/-! ## The product -/

/-- The number of a segment with media. -/
def Spliced.number (x : Spliced) : Option Nat :=
  match x.key with
  | .seg n => some n
  | _ => none

/-- The numbers of the segments with media, in the order of the product. -/
def mediaNumbers (l : List Spliced) : List Nat := l.filterMap Spliced.number

def bytesOf (l : List Spliced) : List UInt8 := l.flatMap (·.data)

/-- The durations of the segments with media, added up. -/
def millisOf : List Spliced → Nat
  | [] => 0
  | x :: l => x.millis + millisOf l

/-- The key of the last initialisation segment. -/
def lastInit (stableUrl : String → String) : List Spliced → Option String
  | [] => none
  | x :: l =>
    (lastInit stableUrl l).or
      (if x.number.isNone then some (mapStableKey stableUrl x.seg) else none)

section
variable {stableUrl : String → String}

theorem mediaNumbers_append (l m : List Spliced) :
    mediaNumbers (l ++ m) = mediaNumbers l ++ mediaNumbers m :=
  List.filterMap_append ..

theorem bytesOf_append (l m : List Spliced) : bytesOf (l ++ m) = bytesOf l ++ bytesOf m :=
  List.flatMap_append ..

theorem millisOf_append (l m : List Spliced) : millisOf (l ++ m) = millisOf l + millisOf m := by
  induction l with
  | nil => exact (Nat.zero_add _).symm
  | cons x l ih => rw [List.cons_append, millisOf, ih, millisOf, Nat.add_assoc]

theorem lastInit_append (l m : List Spliced) :
    lastInit stableUrl (l ++ m) = (lastInit stableUrl m).or (lastInit stableUrl l) := by
  induction l with
  | nil => exact (Option.or_none).symm
  | cons x l ih => rw [List.cons_append, lastInit, ih, lastInit, Option.or_assoc]

end

/-- **What sums up a product**: how many segments there are and how many bytes, a number above all
of theirs, the time, and the key of the last initialisation segment if one is known. -/
structure Describes (stableUrl : String → String) (l : List Spliced)
    (count bytes seq liveMs : Nat) (map : Option String) : Prop where
  count : l.length = count
  bytes : (bytesOf l).length = bytes
  below : ∀ n ∈ mediaNumbers l, n < seq
  millis : millisOf l = liveMs
  map : ∀ k ∈ map, lastInit stableUrl l = some k

namespace Describes

variable {stableUrl : String → String} {l : List Spliced} {count bytes seq liveMs : Nat}
  {map : Option String}

theorem nil (seq : Nat) : Describes stableUrl [] 0 0 seq 0 none where
  count := rfl
  bytes := rfl
  below := fun _ hn => (by cases hn)
  millis := rfl
  map := fun _ hk => (by cases hk)

theorem raise {seq' : Nat} (h : Describes stableUrl l count bytes seq liveMs map)
    (hle : seq ≤ seq') : Describes stableUrl l count bytes seq' liveMs map :=
  { h with below := fun n hn => Nat.lt_of_lt_of_le (h.below n hn) hle }

/-- An initialisation segment comes behind. -/
theorem addInit (h : Describes stableUrl l count bytes seq liveMs map) {x : Spliced}
    (hx : x.number = none) :
    Describes stableUrl (l ++ [x]) (count + 1) (bytes + x.data.length) seq (liveMs + 0)
      (some (mapStableKey stableUrl x.seg)) where
  count := by rw [List.length_append, h.count]; rfl
  bytes := by rw [bytesOf_append, List.length_append, h.bytes]; simp [bytesOf]
  below := by
    intro n hn
    rw [mediaNumbers_append, List.mem_append] at hn
    rcases hn with hn | hn
    · exact h.below n hn
    · rw [mediaNumbers, List.filterMap_cons_none hx] at hn
      cases hn
  millis := by
    have hzero : x.millis = 0 := by
      rw [Spliced.number] at hx
      rw [Spliced.millis]
      split
      · rename_i hkey
        rw [hkey] at hx
        cases hx
      · rfl
    rw [millisOf_append, h.millis, millisOf, hzero]
    rfl
  map := by
    rintro k ⟨⟩
    rw [lastInit_append, lastInit, lastInit, hx]
    rfl

/-- A segment with media comes behind, whose number is the next. -/
theorem addSeg (h : Describes stableUrl l count bytes seq liveMs map) {x : Spliced}
    (hx : x.number = some seq) :
    Describes stableUrl (l ++ [x]) (count + 1) (bytes + x.data.length) (seq + 1)
      (liveMs + x.millis) map where
  count := by rw [List.length_append, h.count]; rfl
  bytes := by rw [bytesOf_append, List.length_append, h.bytes]; simp [bytesOf]
  below := by
    intro n hn
    rw [mediaNumbers_append, List.mem_append] at hn
    rcases hn with hn | hn
    · exact Nat.lt_succ_of_lt (h.below n hn)
    · rw [mediaNumbers, List.filterMap_cons_some hx, List.filterMap_nil, List.mem_singleton] at hn
      exact hn ▸ Nat.lt_succ_self n
  millis := by rw [millisOf_append, h.millis]; rfl
  map := by
    intro k hk
    rw [lastInit_append, lastInit, lastInit, hx]
    exact h.map k hk

end Describes

/-- A segment whose number is above all others comes behind. -/
theorem sorted_addSeg {l : List Spliced} {x : Spliced} {seq : Nat}
    (h : (mediaNumbers l).Pairwise (· < ·)) (hbelow : ∀ n ∈ mediaNumbers l, n < seq)
    (hx : x.number = some seq) : (mediaNumbers (l ++ [x])).Pairwise (· < ·) := by
  rw [mediaNumbers_append, List.pairwise_append]
  refine ⟨h, ?_, fun n hn m hm => ?_⟩
  · rw [mediaNumbers, List.filterMap_cons_some hx]
    exact List.pairwise_singleton _ _
  · rw [mediaNumbers, List.filterMap_cons_some hx, List.filterMap_nil, List.mem_singleton] at hm
    exact hm ▸ hbelow n hn

theorem sorted_addInit {l : List Spliced} {x : Spliced} (h : (mediaNumbers l).Pairwise (· < ·))
    (hx : x.number = none) : (mediaNumbers (l ++ [x])).Pairwise (· < ·) := by
  rw [mediaNumbers_append, mediaNumbers, mediaNumbers, List.filterMap_cons_none hx, List.filterMap_nil,
    List.append_nil]
  exact h

/-! ## One stream, over all its runs -/

namespace Recording

/-- No error of the disk comes while a segment is spliced. -/
def Whole : LiveEvent → Prop
  | .spliceFailed _ => False
  | _ => True

instance decidableWhole : (e : LiveEvent) → Decidable (Whole e)
  | .spliceFailed _ => instDecidableFalse
  | .start _ | .turn _ | .snapshot _ | .snapshotFailed _ | .loaded _ _ | .loadFailed _ | .wait _
  | .cancel | .writeOut _ | .diskFailed | .close _ | .kill => instDecidableTrue

/-- All bytes that the sink was given. -/
def handed (r : Recording) : List UInt8 :=
  r.product ++ match r.session with
    | some s => s.buffer
    | none => []

/-- What a control file says of the segments spliced when it was saved. -/
def CtrlDescribes (stableUrl : String → String) (l : List Spliced) (c : LiveCtrl) : Prop :=
  Describes stableUrl l c.spliced c.bytes c.seq c.liveMs (if c.map = "" then none else some c.map)

/-- What holds of a session. -/
structure Sums (stableUrl : String → String) (r : Recording) (s : Session) : Prop where
  product : r.product ++ s.buffer = bytesOf r.spliced
  sorted : (mediaNumbers r.spliced).Pairwise (· < ·)
  describes : Describes stableUrl r.spliced s.live.splicedTotal (bytesOf r.spliced).length
    s.live.headSeq s.liveMs s.live.writtenMap

/-- Nothing was spliced since a recording started afresh; a control file from before is still
there. -/
def Fresh (r : Recording) : Prop :=
  r.product = [] ∧ ∀ s ∈ r.session, s.buffer = [] ∧ s.lastSave = none ∧ s.dirty = false

/-- What holds in every state of a recording. -/
structure Follows (stableUrl : String → String) (r : Recording) : Prop where
  product : r.session = none → r.ctrl.isSome = true → r.product <+: bytesOf r.spliced
  sorted : (mediaNumbers r.spliced).Pairwise (· < ·)
  session : ∀ s ∈ r.session, Sums stableUrl r s
  saved : ∀ c ∈ r.ctrl,
    CtrlDescribes stableUrl r.saved c ∧ (mediaNumbers r.saved).Pairwise (· < ·)
  linked : r.ctrl.isSome = true → r.saved <+: r.spliced ∨ Fresh r

variable {stableUrl : String → String} {opts : LiveOptions} {r r' : Recording} {s s' : Session}

theorem Sums.position (h : Sums stableUrl r s) :
    r.position s = (bytesOf r.spliced).length := by
  rw [Recording.position, ← List.length_append, h.product]

/-- The control file of a session sums up its product. -/
theorem Sums.ctrlOf (h : Sums stableUrl r s) :
    CtrlDescribes stableUrl r.spliced (r.ctrlOf s) := by
  rw [CtrlDescribes, Recording.ctrlOf]
  dsimp only
  rw [h.position]
  refine { h.describes with map := fun k hk => ?_ }
  split at hk
  · cases hk
  · cases hw : s.live.writtenMap with
    | none =>
      rename_i hne
      exact absurd (by rw [hw]; rfl) hne
    | some k' =>
      rw [hw] at hk
      obtain rfl : k' = k := Option.some.inj hk
      exact h.describes.map k' hw

/-- One segment is spliced. -/
theorem Sums.spliceOne {bytes : Nat} (h : Sums stableUrl r s)
    (hone : r.spliceOne stableUrl s = some (r', s', bytes)) :
    Sums stableUrl r' s' ∧ r'.product = r.product ∧ r'.ctrl = r.ctrl ∧
      r'.saved = r.saved ∧ (∃ x, r'.spliced = r.spliced ++ [x]) ∧ s'.dirty = true ∧
      s'.lastSave = s.lastSave := by
  rw [Recording.spliceOne, Option.map_eq_some_iff] at hone
  obtain ⟨⟨key, it, live⟩, hlive, heq⟩ := hone
  obtain ⟨rfl, rfl, rfl⟩ := heq
  have hprod : ∀ x : Spliced,
      r.product ++ (s.buffer ++ x.data) = bytesOf (r.spliced ++ [x]) := by
    intro x
    rw [← List.append_assoc, h.product, bytesOf_append]
    simp [bytesOf]
  refine ⟨?_, rfl, rfl, rfl, ⟨_, rfl⟩, rfl, rfl⟩
  obtain ⟨-, ⟨rfl, -, rfl⟩ | ⟨rfl, -, -, rfl⟩ | ⟨rfl, -, -, -, rfl⟩⟩ :=
    LiveState.spliceOne_cases stableUrl hlive
  · have hx := h.describes.addInit (x := r.piece s .leadingMap it) rfl
    exact ⟨hprod _, sorted_addInit h.sorted rfl, { hx with bytes := rfl }⟩
  · have hx := h.describes.addInit (x := r.piece s (.map s.live.headSeq) it) rfl
    exact ⟨hprod _, sorted_addInit h.sorted rfl, { hx with bytes := rfl }⟩
  · have hx := h.describes.addSeg (x := r.piece s (.seg s.live.headSeq) it) rfl
    exact ⟨hprod _, sorted_addSeg h.sorted h.describes.below rfl,
      { hx with bytes := rfl }⟩

/-- Two sessions of which the same is to be said of the product; the head may have moved on. -/
structure SameSums (s s' : Session) : Prop where
  buffer : s'.buffer = s.buffer
  liveMs : s'.liveMs = s.liveMs
  lastSave : s'.lastSave = s.lastSave
  dirty : s'.dirty = s.dirty
  head : s.live.headSeq ≤ s'.live.headSeq
  total : s'.live.splicedTotal = s.live.splicedTotal
  written : s'.live.writtenMap = s.live.writtenMap

namespace SameSums

theorem refl (s : Session) : SameSums s s := ⟨rfl, rfl, rfl, rfl, Nat.le_refl _, rfl, rfl⟩

theorem trans {s1 s2 s3 : Session} (h : SameSums s1 s2) (h' : SameSums s2 s3) :
    SameSums s1 s3 where
  buffer := h'.buffer.trans h.buffer
  liveMs := h'.liveMs.trans h.liveMs
  lastSave := h'.lastSave.trans h.lastSave
  dirty := h'.dirty.trans h.dirty
  head := Nat.le_trans h.head h'.head
  total := h'.total.trans h.total
  written := h'.written.trans h.written

theorem onItem (s : Session) (key : LiveKey) (f : LiveItem → LiveItem) (inflight : List LiveKey) :
    SameSums s { s with inflight, live := s.live.onItem key f } := by
  cases key with
  | leadingMap => exact ⟨rfl, rfl, rfl, rfl, Nat.le_refl _, rfl, rfl⟩
  | map seq => exact ⟨rfl, rfl, rfl, rfl, Nat.le_refl _, rfl, rfl⟩
  | seg seq => exact ⟨rfl, rfl, rfl, rfl, Nat.le_refl _, rfl, rfl⟩

theorem dispatch (now room : Nat) (s : Session) : SameSums s (Recording.dispatch now room s) := by
  induction room generalizing s with
  | zero => exact refl s
  | succ room ih =>
    rw [Recording.dispatch]
    cases htake : s.live.takeForDispatch now with
    | none => exact refl s
    | some out =>
      obtain ⟨key, live⟩ := out
      rw [LiveState.takeForDispatch, Option.map_eq_some_iff] at htake
      obtain ⟨key', -, heq⟩ := htake
      obtain ⟨rfl, rfl⟩ := heq
      exact (onItem s _ _ _).trans (ih _)

theorem askSnapshot (now : Nat) (s : Session) : SameSums s (Recording.askSnapshot now s) := by
  rw [Recording.askSnapshot]
  split
  · exact ⟨rfl, rfl, rfl, rfl, Nat.le_refl _, rfl, rfl⟩
  · exact refl s

/-- A snapshot is taken in. -/
theorem reloaded (s : Session) (plan : PlaylistPlan) (now next : Nat)
    (declared : Nat → Option String) :
    SameSums s { s with
      live := s.live.reloaded stableUrl plan now, reloadInflight := false, nextReloadAt := next,
      declared := declared } := by
  have hlive : s.live.headSeq ≤ (s.live.reloaded stableUrl plan now).headSeq ∧
      (s.live.reloaded stableUrl plan now).splicedTotal = s.live.splicedTotal ∧
      (s.live.reloaded stableUrl plan now).writtenMap = s.live.writtenMap := by
    rw [LiveState.reloaded]
    split
    · exact ⟨Nat.le_refl _, rfl, rfl⟩
    · rcases LiveState.apply_cases stableUrl
        { s.live with failStreak := 0, goneStreak := 0, lastOkReload := now } plan now with
        ⟨-, hsame⟩ | ⟨first, last, -, -, happ⟩
      · rw [hsame]
        exact ⟨Nat.le_refl _, rfl, rfl⟩
      · exact ⟨happ.head_le, happ.splicedTotal, happ.writtenMap⟩
  exact ⟨rfl, rfl, rfl, rfl, hlive.1, hlive.2.1, hlive.2.2⟩

end SameSums

theorem Sums.same (h : Sums stableUrl r s) (hsame : SameSums s s')
    (hproduct : r'.product = r.product) (hspliced : r'.spliced = r.spliced) :
    Sums stableUrl r' s' where
  product := by rw [hproduct, hsame.buffer, hspliced]; exact h.product
  sorted := by rw [hspliced]; exact h.sorted
  describes := by
    rw [hspliced, hsame.total, hsame.liveMs, hsame.written]
    exact h.describes.raise hsame.head

theorem SameSums.left (s : Session) (exit : Option LiveExit) : SameSums s { s with exit } :=
  ⟨rfl, rfl, rfl, rfl, Nat.le_refl _, rfl, rfl⟩

theorem Sums.spliceBatch {rounds moved : Nat} (h : Sums stableUrl r s)
    (heq : Recording.spliceBatch stableUrl rounds r s moved = (r', s')) :
    Sums stableUrl r' s' ∧ r'.product = r.product ∧ r'.ctrl = r.ctrl ∧ r'.saved = r.saved ∧
      r.spliced <+: r'.spliced ∧ s'.lastSave = s.lastSave ∧
      (r' = r ∧ s' = s ∨ s'.dirty = true) := by
  induction rounds generalizing r s moved with
  | zero =>
    obtain ⟨rfl, rfl⟩ := heq
    exact ⟨h, rfl, rfl, rfl, List.prefix_rfl, rfl, .inl ⟨rfl, rfl⟩⟩
  | succ rounds ih =>
    rw [Recording.spliceBatch] at heq
    cases hone : r.spliceOne stableUrl s with
    | none =>
      rw [hone] at heq
      obtain ⟨rfl, rfl⟩ := heq
      exact ⟨h, rfl, rfl, rfl, List.prefix_rfl, rfl, .inl ⟨rfl, rfl⟩⟩
    | some out =>
      obtain ⟨r1, s1, bytes⟩ := out
      rw [hone] at heq
      dsimp only at heq
      obtain ⟨h1, hproduct, hctrl, hsaved, ⟨x, hx⟩, hdirty, hlast⟩ := h.spliceOne hone
      have hpre : r.spliced <+: r1.spliced := ⟨[x], hx.symm⟩
      split at heq
      · obtain ⟨rfl, rfl⟩ := heq
        exact ⟨h1, hproduct, hctrl, hsaved, hpre, hlast, .inr hdirty⟩
      · obtain ⟨h2, hproduct2, hctrl2, hsaved2, hpre2, hlast2, hor⟩ := ih h1 heq
        refine ⟨h2, hproduct2.trans hproduct, hctrl2.trans hctrl, hsaved2.trans hsaved,
          hpre.trans hpre2, hlast2.trans hlast, .inr ?_⟩
        rcases hor with ⟨-, rfl⟩ | hd
        · exact hdirty
        · exact hd

/-- The control file is saved, or everything stays. -/
theorem Sums.saveDue {flushed : Bool} (h : Sums stableUrl r s)
    (heq : r.saveDue s flushed = (r', s')) :
    Sums stableUrl r' s' ∧ r'.spliced = r.spliced ∧
      (r'.ctrl = some (r.ctrlOf s) ∧ r'.saved = r.spliced ∨
        r' = r ∧ s' = s ∧ (s.lastSave = none → s.dirty = false)) := by
  rw [Recording.saveDue] at heq
  split at heq
  · cases flushed with
    | true =>
      obtain ⟨rfl, rfl⟩ := heq
      refine ⟨⟨?_, h.sorted, h.describes⟩, rfl, .inl ⟨rfl, rfl⟩⟩
      dsimp only
      rw [List.append_nil]
      exact h.product
    | false =>
      obtain ⟨rfl, rfl⟩ := heq
      exact ⟨⟨h.product, h.sorted, h.describes⟩, rfl, .inl ⟨rfl, rfl⟩⟩
  · rename_i hno
    obtain ⟨rfl, rfl⟩ := heq
    refine ⟨h, rfl, .inr ⟨rfl, rfl, fun hnone => ?_⟩⟩
    rw [hnone] at hno
    simpa using hno

/-- A session that says the same goes on, or its loop is left. -/
theorem Follows.same (h : Follows stableUrl r) (hs : r.session = some s)
    (hsame : SameSums s s') (hr : r'.product = r.product) (hl : r'.spliced = r.spliced)
    (hc : r'.ctrl = r.ctrl) (hv : r'.saved = r.saved) (hs' : r'.session = some s') :
    Follows stableUrl r' where
  product := fun hnone => (by rw [hs'] at hnone; cases hnone)
  sorted := hl ▸ h.sorted
  session := by
    intro t ht
    rw [hs'] at ht
    obtain rfl := Option.some.inj ht
    exact (h.session s hs).same hsame hr hl
  saved := by
    rw [hc, hv]
    exact h.saved
  linked := by
    rw [hc, hv, hl]
    refine fun hsome => (h.linked hsome).imp_right fun hfresh => ⟨hr ▸ hfresh.1, fun t ht => ?_⟩
    rw [hs'] at ht
    obtain rfl := Option.some.inj ht
    rw [hsame.buffer, hsame.lastSave, hsame.dirty]
    exact hfresh.2 s hs

theorem Follows.turn (h : Follows stableUrl r) (hs : r.session = some s) (flushed : Bool) :
    Follows stableUrl (r.turn stableUrl opts s flushed) := by
  rw [Recording.turn]
  rcases hb : Recording.spliceBatch stableUrl (kept s.live + 1) r s 0 with ⟨r1, s1⟩
  dsimp only
  rcases hsave : r1.saveDue s1 flushed with ⟨r2, s2⟩
  dsimp only
  obtain ⟨h1, hproduct, hctrl, hsaved1, hpre, hlast, hsame1⟩ := (h.session s hs).spliceBatch hb
  obtain ⟨h2, hspliced, hsaved⟩ := h1.saveDue hsave
  have hmid : Follows stableUrl { r2 with session := some s2 } := by
    refine ⟨nofun, h2.sorted, fun t ht => ?_, fun c hc => ?_, fun hc => ?_⟩
    · obtain rfl := Option.some.inj ht
      exact ⟨h2.product, h2.sorted, h2.describes⟩
    · rcases hsaved with ⟨hnew, hv⟩ | ⟨rfl, -, -⟩
      · rw [hnew] at hc
        obtain rfl := Option.some.inj hc
        dsimp only
        rw [hv]
        exact ⟨h1.ctrlOf, h1.sorted⟩
      · dsimp only at hc ⊢
        rw [hctrl] at hc
        rw [hsaved1]
        exact h.saved c hc
    · rcases hsaved with ⟨hnew, hv⟩ | ⟨rfl, rfl, hclean⟩
      · dsimp only
        rw [hv, hspliced]
        exact .inl List.prefix_rfl
      · dsimp only at hc ⊢
        rw [hctrl] at hc
        rw [hsaved1]
        rcases h.linked hc with hle | ⟨hempty, hsess⟩
        · exact .inl (hle.trans hpre)
        · obtain ⟨hbuf, hls, hdirty⟩ := hsess s hs
          have hdirty1 : s2.dirty = false := hclean (hlast.trans hls)
          rcases hsame1 with ⟨rfl, rfl⟩ | hd
          · refine .inr ⟨hempty, fun t ht => ?_⟩
            obtain rfl := Option.some.inj ht
            exact ⟨hbuf, hls, hdirty⟩
          · rw [hdirty1] at hd
            cases hd
  have hdisp := SameSums.dispatch r2.now (opts.conn - s2.inflight.length) s2
  split
  · exact hmid.same rfl (hdisp.trans (SameSums.left _ _)) rfl rfl rfl rfl rfl
  · exact hmid.same rfl (hdisp.trans (SameSums.askSnapshot r2.now _)) rfl rfl rfl rfl rfl

/-- A session begins, behind what was saved or afresh. -/
theorem Follows.start {plan : PlaylistPlan} (h : Follows stableUrl r) (hs : r.session = none) :
    Follows stableUrl (r.start stableUrl opts plan) := by
  have hlive : ∀ c, (startLive c plan r.now).headSeq ≤
        ((startLive c plan r.now).apply stableUrl plan r.now).headSeq ∧
      ((startLive c plan r.now).apply stableUrl plan r.now).splicedTotal =
        (startLive c plan r.now).splicedTotal ∧
      ((startLive c plan r.now).apply stableUrl plan r.now).writtenMap =
        (startLive c plan r.now).writtenMap := by
    intro c
    rcases LiveState.apply_cases stableUrl (startLive c plan r.now) plan r.now with
      ⟨-, hsame⟩ | ⟨first, last, -, -, happ⟩
    · rw [hsame]
      exact ⟨Nat.le_refl _, rfl, rfl⟩
    · exact ⟨happ.head_le, happ.splicedTotal, happ.writtenMap⟩
  cases hres : r.resume stableUrl plan with
  | none =>
    obtain ⟨-, htotal, hwritten⟩ := hlive none
    have hspliced : (r.start stableUrl opts plan).spliced = [] := by rw [Recording.start, hres]; rfl
    have hproduct : (r.start stableUrl opts plan).product = [] := by rw [Recording.start, hres]; rfl
    refine ⟨nofun, ?_, fun t ht => ?_, h.saved, fun _ => .inr ⟨hproduct, ?_⟩⟩
    · rw [hspliced]
      exact List.Pairwise.nil
    · obtain rfl := Option.some.inj ht
      refine ⟨by rw [hproduct, hspliced]; rfl, by rw [hspliced]; exact List.Pairwise.nil, ?_⟩
      rw [hspliced, hres]
      dsimp only
      rw [htotal, hwritten]
      exact Describes.nil _
    · intro t ht
      obtain rfl := Option.some.inj ht
      exact ⟨rfl, rfl, rfl⟩
  | some c =>
    have hmem := hres
    rw [resume, Option.filter_eq_some_iff] at hmem
    obtain ⟨hc, hfit⟩ := hmem
    have hle : c.bytes ≤ r.product.length := by
      rw [Bool.and_eq_true, decide_eq_true_eq] at hfit
      exact hfit.2
    have hsome : r.ctrl.isSome = true := by rw [hc]; rfl
    obtain ⟨hdesc, hsorted⟩ := h.saved c hc
    have htake : r.product.take c.bytes = bytesOf r.saved := by
      rcases h.linked hsome with ⟨rest, hrest⟩ | hfresh
      · obtain ⟨tail, htail⟩ := h.product hs hsome
        rw [← hrest, bytesOf_append] at htail
        have := congrArg (List.take c.bytes) htail
        rw [List.take_append_of_le_length hle, ← hdesc.bytes, List.take_left' rfl] at this
        rw [← hdesc.bytes]
        exact this
      · rw [hfresh.1, List.length_nil, Nat.le_zero, ← hdesc.bytes, List.length_eq_zero_iff] at hle
        rw [hfresh.1, List.take_nil, hle]
    obtain ⟨hhead, htotal, hwritten⟩ := hlive (some c)
    have hspliced : (r.start stableUrl opts plan).spliced = r.saved := by
      rw [Recording.start, hres]
      rfl
    have hproduct : (r.start stableUrl opts plan).product = bytesOf r.saved := by
      rw [Recording.start, hres]
      exact htake
    refine ⟨nofun, ?_, fun t ht => ?_, h.saved, fun _ => .inl ?_⟩
    · rw [hspliced]
      exact hsorted
    · obtain rfl := Option.some.inj ht
      refine ⟨by rw [hproduct, hspliced, List.append_nil], by rw [hspliced]; exact hsorted, ?_⟩
      rw [hspliced, hres]
      dsimp only
      rw [htotal, hwritten]
      refine { hdesc.raise hhead with bytes := rfl, map := fun k hk => hdesc.map k ?_ }
      rw [startLive] at hk
      exact hk
    · rw [hspliced]
      exact List.prefix_rfl

/-- The loop is left, and the sink is closed. -/
theorem Follows.close {e : LiveExit} {flushed : Bool} (h : Follows stableUrl r)
    (hs : r.session = some s) : Follows stableUrl (r.close s e flushed) := by
  have hsum := h.session s hs
  have hsaved : ∀ product, product <+: bytesOf r.spliced →
      Follows stableUrl
        { r with product, ctrl := some (r.ctrlOf s), saved := r.spliced, session := none } := by
    intro product hp
    refine ⟨fun _ _ => hp, h.sorted, fun t ht => (by cases ht), fun c hc => ?_,
      fun _ => .inl List.prefix_rfl⟩
    obtain rfl := Option.some.inj hc
    exact ⟨hsum.ctrlOf, h.sorted⟩
  have hall : r.product ++ s.buffer <+: bytesOf r.spliced :=
    ⟨[], (List.append_nil _).trans hsum.product⟩
  have hover : Follows stableUrl
      { r with
        product := r.product ++ s.buffer, ctrl := none, files := fun _ => none, session := none } :=
    ⟨fun _ _ => hall, h.sorted, fun t ht => (by cases ht), fun c hc => (by cases hc),
      nofun⟩
  cases flushed with
  | true =>
    cases e with
    | failed => exact hsaved _ hall
    | cancelled => exact hsaved _ hall
    | ended => exact hover
    | stalled => exact hover
  | false => exact hsaved _ ⟨s.buffer, hsum.product⟩

theorem Follows.onSession {e : LiveEvent} (h : Follows stableUrl r)
    (hs : r.session = some s) (he : Whole e)
    (hstep : r.onSession stableUrl opts s e = some r') : Follows stableUrl r' := by
  cases e with
  | turn flushed =>
    obtain rfl := Option.some.inj hstep
    exact h.turn hs flushed
  | snapshot plan =>
    simp only [Recording.onSession] at hstep
    split at hstep
    · obtain rfl := Option.some.inj hstep
      exact h.same hs (@SameSums.reloaded stableUrl s plan r.now _ _)
        rfl rfl rfl rfl rfl
    · cases hstep
  | snapshotFailed gone =>
    simp only [Recording.onSession] at hstep
    split at hstep
    · obtain rfl := Option.some.inj hstep
      refine h.same hs ?_ rfl rfl rfl rfl rfl
      dsimp only [LiveState.reloadFailed]
      split
      · split
        · exact ⟨rfl, rfl, rfl, rfl, Nat.le_refl _, rfl, rfl⟩
        · exact ⟨rfl, rfl, rfl, rfl, Nat.le_refl _, rfl, rfl⟩
      · exact ⟨rfl, rfl, rfl, rfl, Nat.le_refl _, rfl, rfl⟩
    · cases hstep
  | loaded key data =>
    simp only [Recording.onSession] at hstep
    split at hstep
    · obtain rfl := Option.some.inj hstep
      exact h.same hs (SameSums.onItem s key _ _) rfl rfl rfl rfl rfl
    · cases hstep
  | loadFailed key =>
    simp only [Recording.onSession] at hstep
    split at hstep
    · obtain rfl := Option.some.inj hstep
      exact h.same hs (SameSums.onItem s key _ _) rfl rfl rfl rfl rfl
    · cases hstep
  | cancel =>
    obtain rfl := Option.some.inj hstep
    exact h.same hs (SameSums.left s _) rfl rfl rfl rfl rfl
  | diskFailed =>
    obtain rfl := Option.some.inj hstep
    exact h.same hs (SameSums.left s _) rfl rfl rfl rfl rfl
  | spliceFailed bytes => exact he.elim
  | start plan => cases hstep
  | wait ms => cases hstep
  | writeOut bytes => cases hstep
  | close flushed => cases hstep
  | kill => cases hstep

/-- The process is killed: what the sink had not written out is lost. -/
theorem Follows.kill (h : Follows stableUrl r) : Follows stableUrl { r with session := none } := by
  refine ⟨fun _ hc => ?_, h.sorted, fun t ht => (by cases ht), h.saved, fun hc =>
    (h.linked hc).imp_right fun hfresh => ⟨hfresh.1, fun t ht => (by cases ht)⟩⟩
  cases hs : r.session with
  | none => exact h.product hs hc
  | some s => exact ⟨s.buffer, (h.session s hs).product⟩

theorem Follows.writeOut {n : Nat} (h : Follows stableUrl r) (hs : r.session = some s) :
    Follows stableUrl
      { r with
        product := r.product ++ s.buffer.take n
        session := some { s with buffer := s.buffer.drop n } } := by
  have hsum := h.session s hs
  refine ⟨nofun, h.sorted, fun t ht => ?_, h.saved, fun hc => ?_⟩
  · obtain rfl := Option.some.inj ht
    refine ⟨?_, hsum.sorted, hsum.describes⟩
    dsimp only
    rw [List.append_assoc, List.take_append_drop]
    exact hsum.product
  · refine (h.linked hc).imp_right fun hfresh => ?_
    obtain ⟨hbuf, hls, hdirty⟩ := hfresh.2 s hs
    refine ⟨?_, fun t ht => ?_⟩
    · rw [hbuf, hfresh.1, List.take_nil, List.append_nil]
    · obtain rfl := Option.some.inj ht
      exact ⟨by rw [hbuf, List.drop_nil], hls, hdirty⟩

theorem Follows.step {e : LiveEvent} (h : Follows stableUrl r) (he : Whole e)
    (hstep : r.step stableUrl opts e = some r') : Follows stableUrl r' := by
  cases hs : r.session with
  | none =>
    cases e with
    | start plan =>
      simp only [Recording.step, hs] at hstep
      split at hstep
      · cases hstep
      · obtain rfl := Option.some.inj hstep
        exact h.start hs
    | wait ms =>
      obtain rfl := Option.some.inj hstep
      exact ⟨h.product, h.sorted, fun t ht => (by rw [hs] at ht; cases ht), h.saved, h.linked⟩
    | kill =>
      obtain rfl := Option.some.inj hstep
      exact h.kill
    | _ => simp [Recording.step, hs] at hstep
  | some s =>
    cases e with
    | start plan => simp [Recording.step, hs] at hstep
    | wait ms =>
      obtain rfl := Option.some.inj hstep
      exact h.same hs (SameSums.refl s) rfl rfl rfl rfl hs
    | kill =>
      obtain rfl := Option.some.inj hstep
      exact h.kill
    | writeOut n =>
      simp only [Recording.step, hs] at hstep
      obtain rfl := Option.some.inj hstep
      exact h.writeOut hs
    | close flushed =>
      simp only [Recording.step, hs, Option.map_eq_some_iff] at hstep
      obtain ⟨e, -, rfl⟩ := hstep
      exact h.close hs
    | _ =>
      simp only [Recording.step, hs] at hstep
      split at hstep
      · exact h.onSession hs he hstep
      · cases hstep

/-- The first bytes of the product are those of the segments that the control file is about. -/
theorem Follows.saved_first (h : Follows stableUrl r) {c : LiveCtrl} (hc : r.ctrl = some c)
    (hle : c.bytes ≤ r.handed.length) : r.handed.take c.bytes = bytesOf r.saved := by
  have hsome : r.ctrl.isSome = true := by rw [hc]; rfl
  have hdesc := (h.saved c hc).1
  rcases h.linked hsome with ⟨rest, hrest⟩ | hfresh
  · have hpre : r.handed <+: bytesOf r.spliced := by
      rw [handed]
      cases hs : r.session with
      | none =>
        rw [List.append_nil]
        exact h.product hs hsome
      | some s => exact ⟨[], by rw [List.append_nil]; exact (h.session s hs).product⟩
    obtain ⟨tail, htail⟩ := hpre
    rw [← hrest, bytesOf_append] at htail
    have := congrArg (List.take c.bytes) htail
    rw [List.take_append_of_le_length hle, ← hdesc.bytes, List.take_left' rfl] at this
    rw [← hdesc.bytes]
    exact this
  · have hnil : r.handed = [] := by
      rw [handed, hfresh.1]
      cases hs : r.session with
      | none => rfl
      | some s => exact (hfresh.2 s hs).1
    rw [hnil, List.length_nil, Nat.le_zero, ← hdesc.bytes, List.length_eq_zero_iff] at hle
    rw [hnil, List.take_nil, hle]

/-- Two segments are recorded, the second after a pause; then the process is killed, and a third
run begins with a window that has moved on. -/
def threeRuns : List LiveEvent :=
  let seg (n : Nat) : Segment := { url := "https://h/s.ts", millis := 2000, seq := n }
  let plan (segs : List Segment) : PlaylistPlan :=
    { source := "https://h/live.m3u8", segments := segs }
  [.start (plan [seg 1, seg 2]), .turn true, .loaded (.seg 1) [1, 1], .turn true, .cancel,
    .close true, .start (plan [seg 1, seg 2, seg 3]), .turn true, .loaded (.seg 2) [2],
    .wait 2000, .turn true, .kill, .start (plan [seg 3]), .turn true, .loaded (.seg 3) [3, 3, 3],
    .turn true]

def threeOptions : LiveOptions where
  conn := 4
  stallTimeout := 60000
  reloadInterval := 1000

example : ((run (step id threeOptions) {} threeRuns).map fun r => mediaNumbers r.spliced) =
    some [1, 2, 3] := by decide

end Recording

end XferRust.Playlist
