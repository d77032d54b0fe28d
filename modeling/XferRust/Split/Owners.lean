import XferRust.Split.Queue

/-! # Every unfinished segment has somebody to answer for it

As long as there is no fatal error, a segment that lacks bytes is in the work queue or read by a
worker.  The one exception is a download that is told to stop: a stopped worker returns without
giving its segment back, and nobody needs it to, since the next run reads the control file.
The statement is in wrapping arithmetic and holds whatever the segment table looks like.
-/
namespace XferRust.Split
open Tiling StepRun

/-- The watermarks lie inside their segments, a finished segment lacks nothing, the counter is
the sum over the segments, and what a segment lacks is waiting in the queue or being read. -/
structure Owned (b : Table) (readers : Nat → Nat) : Prop where
  written : ∀ s ∈ b.segs, s.written ≤ s.end_ - s.start
  done : ∀ s ∈ b.segs, s.done = true → s.remaining = 0
  todo : b.todo = Word.sum Seg.remaining b.segs
  queued : ∀ (i : Nat) s, b.segs[i]? = some s → s.done = false → s.queued = true → i ∈ b.queue
  owned : ∀ (i : Nat) s, b.segs[i]? = some s → s.remaining ≠ 0 → s.queued = true ∨ 0 < s.holders
  holders : ∀ (i : Nat) s, b.segs[i]? = some s → s.remaining ≠ 0 → s.holders ≤ readers i

namespace Owned
variable {b : Table} {readers : Nat → Nat}

variable {s : Seg}

theorem undone (h : Owned b readers) {i : Nat} (hs : b.segs[i]? = some s) (hr : s.remaining ≠ 0) :
    s.done = false := by
  cases hd : s.done with
  | false => rfl
  | true => exact absurd (h.done s (List.mem_of_getElem? hs) hd) hr

/-- A segment that lacks bytes has its end above its watermark. -/
theorem lacks (h : Owned b readers) {i : Nat} (hs : b.segs[i]? = some s) (hr : s.remaining ≠ 0) :
    s.end_ - s.start > s.written := by
  refine UInt64.lt_of_le_of_ne (h.written s (List.mem_of_getElem? hs)) fun heq => hr ?_
  unfold Seg.remaining
  rw [heq]
  grind

variable {sid : Nat}

/-- What a move of segment `sid` has to show when it leaves the other segments alone. -/
theorem set (h : Owned b readers) {readers' : Nat → Nat} {s' : Seg} {queue : List Nat}
    {todo completed : UInt64} (hs : b.segs[sid]? = some s)
    (hwritten : s'.written ≤ s'.end_ - s'.start) (hdone : s'.done = true → s'.remaining = 0)
    (htodo : todo + s.remaining = b.todo + s'.remaining)
    (hqueue : ∀ i ∈ b.queue, i ≠ sid → ∀ t, b.segs[i]? = some t → t.done = false → i ∈ queue)
    (hqueued : s'.done = false → s'.queued = true → sid ∈ queue)
    (howned : s'.remaining ≠ 0 → s'.queued = true ∨ 0 < s'.holders)
    (hholders : s'.remaining ≠ 0 → s'.holders ≤ readers' sid)
    (hreaders : ∀ i, i ≠ sid → readers i ≤ readers' i) :
    Owned { b with segs := b.segs.set sid s', queue, todo, completed } readers' := by
  refine ⟨?_, ?_, ?_, ?_, ?_, ?_⟩
  · intro g hg
    rcases List.mem_or_eq_of_mem_set hg with hg | rfl
    · exact h.written g hg
    · exact hwritten
  · intro g hg
    rcases List.mem_or_eq_of_mem_set hg with hg | rfl
    · exact h.done g hg
    · exact hdone
  · have hset := Word.sum_set (f := Seg.remaining) hs s'
    have hold := h.todo
    dsimp only
    grind
  · intro i g hg hd hq
    rcases getElem?_set_cases hg with ⟨rfl, rfl⟩ | ⟨hne, hg⟩
    · exact hqueued hd hq
    · exact hqueue i (h.queued i g hg hd hq) hne g hg hd
  · intro i g hg hr
    rcases getElem?_set_cases hg with ⟨rfl, rfl⟩ | ⟨-, hg⟩
    · exact howned hr
    · exact h.owned i g hg hr
  · intro i g hg hr
    rcases getElem?_set_cases hg with ⟨rfl, rfl⟩ | ⟨hne, hg⟩
    · exact hholders hr
    · exact Nat.le_trans (h.holders i g hg hr) (hreaders i hne)

theorem remaining_ne_zero_of_lt {k : UInt64} (hk : k < s.remaining) : s.remaining ≠ 0 := by
  intro h0
  rw [h0, UInt64.lt_iff_toNat_lt] at hk
  exact Nat.not_lt_zero _ hk

/-- A cut loses nothing: the first part stays with its readers, the second is in the queue. -/
theorem cut (h : Owned b readers) {k : UInt64} (t now : Nat) (hs : b.segs[sid]? = some s)
    (hk : k < s.remaining) : Owned (b.cut sid s k t now) readers := by
  have hne := remaining_ne_zero_of_lt hk
  have hw : s.written ≤ (s.keep k t).end_ - s.start := by
    have hlacks := h.written s (List.mem_of_getElem? hs)
    have hend : s.start + s.written + k - s.start = s.written + k := by grind
    have hsum := toNat_size hlacks
    have := (s.end_ - s.start).toNat_lt
    have := UInt64.lt_iff_toNat_lt.mp hk
    simp only [Seg.keep]
    rw [hend, UInt64.le_iff_toNat_le, Word.toNat_add (by omega)]
    omega
  refine ⟨?_, ?_, ?_, ?_, ?_, ?_⟩
  · intro g hg
    rcases List.mem_append.mp hg with hg | hg
    · rcases List.mem_or_eq_of_mem_set hg with hg | rfl
      · exact h.written g hg
      · exact hw
    · obtain rfl := List.mem_singleton.mp hg
      exact UInt64.le_iff_toNat_le.mpr (Nat.zero_le _)
  · intro g hg hd
    rcases List.mem_append.mp hg with hg | hg
    · rcases List.mem_or_eq_of_mem_set hg with hg | rfl
      · exact h.done g hg hd
      · simp only [Seg.keep, h.undone hs hne, Bool.false_or, decide_eq_true_eq] at hd
        rw [remaining_keep, hd]
    · obtain rfl := List.mem_singleton.mp hg
      cases hd
  · have hset := Word.sum_set (f := Seg.remaining) hs (s.keep k t)
    have hold := h.todo
    simp only [Table.cut, Word.sum_append, Word.sum, remaining_keep, remaining_rest] at hset ⊢
    grind
  · intro i g hg hd hq
    simp only [Table.cut, List.mem_append, List.mem_singleton]
    rcases getElem?_cut hg with ⟨rfl, rfl⟩ | ⟨-, hg⟩ | ⟨rfl, rfl⟩
    · exact .inl (h.queued i s hs (h.undone hs hne) hq)
    · exact .inl (h.queued i g hg hd hq)
    · exact .inr rfl
  · intro i g hg hr
    rcases getElem?_cut hg with ⟨rfl, rfl⟩ | ⟨-, hg⟩ | ⟨rfl, rfl⟩
    · exact h.owned i s hs hne
    · exact h.owned i g hg hr
    · exact .inl rfl
  · intro i g hg hr
    rcases getElem?_cut hg with ⟨rfl, rfl⟩ | ⟨-, hg⟩ | ⟨rfl, rfl⟩
    · exact h.holders i s hs hne
    · exact h.holders i g hg hr
    · exact Nat.zero_le _

theorem recut (h : Owned b readers) {b' : Table} (hr : Recut b b') : Owned b' readers :=
  hr.invariant (I := fun b => Owned b readers) (fun _ _ _ _ t now hs hk h => h.cut t now hs hk) h

theorem land (h : Owned b readers) {n : UInt64} (now : Nat) (hs : b.segs[sid]? = some s)
    (hn : n ≤ s.remaining) (hpos : 0 < n.toNat) : Owned (b.land sid s n now) readers := by
  have hlacks := h.written s (List.mem_of_getElem? hs)
  have hne : s.remaining ≠ 0 := by
    intro h0
    rw [h0, UInt64.le_iff_toNat_le] at hn
    exact Nat.not_lt_zero _ (Nat.lt_of_lt_of_le hpos hn)
  have hundone := h.undone hs hne
  refine h.set hs ?_ ?_ ?_ (fun i hi _ _ _ _ => hi) ?_ ?_ ?_ (fun i _ => Nat.le_refl _)
  · have hsum := toNat_size hlacks
    have := (s.end_ - s.start).toNat_lt
    have := UInt64.le_iff_toNat_le.mp hn
    simp only [Seg.land]
    rw [UInt64.le_iff_toNat_le, Word.toNat_add (by omega)]
    omega
  · intro hd
    simp only [Seg.land, hundone, Bool.false_or, decide_eq_true_eq] at hd
    simp only [Seg.land, Seg.remaining]
    grind
  · rw [remaining_land]
    grind
  · intro _ hq
    exact h.queued sid s hs hundone hq
  · intro _
    exact h.owned sid s hs hne
  · intro _
    exact h.holders sid s hs hne

/-- One reader of segment `sid` less; somebody still answers for it. -/
theorem giveBack (h : Owned b readers) (hs : b.segs[sid]? = some s)
    (hkeep : s.done = true ∨ ¬ s.end_ - s.start > s.written ∨ s.queued = true ∨ s.holders - 1 ≠ 0) :
    Owned (b.giveBack sid s) fun i => readers i - if sid = i then 1 else 0 := by
  refine h.set hs (h.written s (List.mem_of_getElem? hs)) (h.done s (List.mem_of_getElem? hs)) rfl
    (fun i hi _ _ _ _ => hi) (h.queued sid s hs) ?_ ?_ ?_
  · intro hr
    rcases hkeep with hd | hl | hq | hh
    · rw [h.undone hs hr] at hd
      cases hd
    · exact absurd (h.lacks hs hr) hl
    · exact .inl hq
    · exact .inr (Nat.pos_of_ne_zero hh)
  · intro hr
    have := h.holders sid s hs hr
    simp only [Seg.giveBack, if_pos]
    omega
  · intro i hi
    rw [if_neg fun h => hi h.symm]
    exact Nat.le_refl _

theorem requeue (h : Owned b readers) (hs : b.segs[sid]? = some s) :
    Owned (b.requeue sid s) fun i => readers i - if sid = i then 1 else 0 := by
  refine h.set hs (h.written s (List.mem_of_getElem? hs)) (h.done s (List.mem_of_getElem? hs)) rfl
    (fun i hi _ _ _ _ => List.mem_append_left _ hi) (fun _ _ => by simp) (fun _ => .inl rfl) ?_ ?_
  · intro hr
    have := h.holders sid s hs hr
    simp only [Seg.giveBack, if_pos]
    omega
  · intro i hi
    rw [if_neg fun h => hi h.symm]
    exact Nat.le_refl _

/-- A worker takes segment `sid`; only finished segments leave the queue besides. -/
theorem take (h : Owned b readers) (queue : List Nat) (now : Nat) (hs : b.segs[sid]? = some s)
    (hqueue : ∀ i ∈ b.queue, i ≠ sid → ∀ t, b.segs[i]? = some t → t.done = false → i ∈ queue) :
    Owned ({ b with queue := queue }.take sid s now)
      fun i => readers i + if sid = i then 1 else 0 := by
  refine h.set hs (h.written s (List.mem_of_getElem? hs)) (h.done s (List.mem_of_getElem? hs)) rfl
    hqueue (fun _ => nofun) (fun _ => .inr (Nat.succ_pos _)) ?_ ?_
  · intro hr
    have := h.holders sid s hs hr
    simp only [Seg.take, if_pos]
    omega
  · intro i hi
    exact Nat.le_add_right _ _

theorem congr (h : Owned b readers) {readers' : Nat → Nat} (he : ∀ i, readers' i = readers i) :
    Owned b readers' :=
  ⟨h.written, h.done, h.todo, h.queued, h.owned, fun i s hs hr => he i ▸ h.holders i s hs hr⟩

/-- The queue holds nothing unfinished, and is emptied. -/
theorem empty (h : Owned b readers) (hpop : Writer.popWork b.segs b.queue = none) :
    Owned { b with queue := [] } readers := by
  refine ⟨h.written, h.done, h.todo, fun i g hg hd hq => ?_, h.owned, h.holders⟩
  rw [popWork_none hpop i (h.queued i g hg hd hq) g hg] at hd
  cases hd

/-! ## Dispatch -/

variable {w : Writer}

theorem released (h : Owned w.table readers) (released : Option (Nat × Bool)) :
    Owned (released.elim w fun r => w.release r.1).table
      fun i => readers i - if released.map Prod.fst = some i then 1 else 0 := by
  cases released with
  | none => exact h.congr fun i => by simp
  | some r =>
    rcases release_cases w r.1 with ⟨hs, ht⟩ | ⟨s, hs, ⟨-, -, -, ht⟩ | ⟨hkeep, ht⟩⟩
    · refine ⟨?_, ?_, ?_, ?_, ?_, ?_⟩ <;> simp only [Option.elim, ht]
      · exact h.written
      · exact h.done
      · exact h.todo
      · exact h.queued
      · exact h.owned
      · intro i g hg hr
        -- the released segment does not exist, so it is not this one
        have hne : r.1 ≠ i := by
          rintro rfl
          rw [show w.table.segs = w.segs from rfl, hs] at hg
          cases hg
        simp only [Option.map_some, Option.some.injEq, if_neg hne]
        exact h.holders i g hg hr
    · simp only [Option.elim, ht]
      exact (h.requeue hs).congr fun i => by simp
    · simp only [Option.elim, ht]
      exact (h.giveBack hs hkeep).congr fun i => by simp

theorem takeWork (h : Owned w.table readers) (failures : UInt32) (now : Nat) :
    Owned (w.takeWork failures now).1.table fun i =>
      readers i + if (w.takeWork failures now).2.seg? = some i then 1 else 0 := by
  rcases takeWork_cases w failures now with
    ⟨sid, s, rest, hpop, hs, ht, ha⟩ | ⟨hpop, -, sid, s, k, hs, -, -, hk, ht, ha⟩ |
      ⟨hpop, -, ht, ha⟩
  · rw [ht, ha]
    obtain ⟨dropped, s', hq, hs', -, hdropped⟩ := popWork_some hpop
    refine (h.take rest now hs fun i hi hne g hg hd => ?_).congr fun i => by simp
    replace hi : i ∈ w.queue := hi
    rw [hq, List.mem_append, List.mem_cons] at hi
    rcases hi with hi | hi | hi
    · rw [hdropped i hi g hg] at hd
      cases hd
    · exact absurd hi hne
    · exact hi
  · rw [ht, ha]
    have hcut := (h.empty hpop).cut s.lastProgress now hs hk
    refine (hcut.take _ now (getElem?_cut_new ..) fun i hi _ _ _ _ => hi).congr fun i => ?_
    simp only [Option.some.injEq]
    rfl
  · rw [ht, ha]
    exact (h.empty hpop).congr fun i => by simp

/-- **A request for work** leaves nobody behind: what the worker gives back is queued again if
nobody else reads it, and what it gets is its own. -/
theorem nextWork (h : Owned w.table readers) (released : Option (Nat × Bool)) (failures : UInt32)
    (now : Nat) :
    Owned (w.nextWork released failures now).1.table fun i =>
      readers i - (if released.map Prod.fst = some i then 1 else 0) +
        if (w.nextWork released failures now).2.seg? = some i then 1 else 0 := by
  have hrel := h.released released
  unfold Writer.nextWork
  dsimp only
  split
  · exact hrel.congr fun i => by simp [Assignment.seg?]
  · exact (hrel.recut (recut_reclaimStalled _ now)).takeWork failures now

end Owned

/-! ## The error slot -/

theorem fatal_takeWork (w : Writer) (failures : UInt32) (now : Nat) :
    (w.takeWork failures now).1.fatal = w.fatal := by
  rcases takeWork_cases w failures now with
    ⟨sid, s, rest, -, -, ht, -⟩ | ⟨-, -, sid, s, k, -, -, -, -, ht, -⟩ | ⟨-, -, ht, -⟩
  · exact congrArg Table.fatal ht
  · exact congrArg Table.fatal ht
  · exact congrArg Table.fatal ht

theorem fatal_nextWork (w : Writer) (released : Option (Nat × Bool)) (failures : UInt32)
    (now : Nat) : (w.nextWork released failures now).1.fatal = w.fatal := by
  have hrel : (released.elim w fun r => w.release r.1).fatal = w.fatal := by
    cases released with
    | none => rfl
    | some r =>
      rcases release_cases w r.1 with ⟨-, ht⟩ | ⟨s, -, ⟨-, -, -, ht⟩ | ⟨-, ht⟩⟩
      · exact congrArg Table.fatal ht
      · exact congrArg Table.fatal ht
      · exact congrArg Table.fatal ht
  unfold Writer.nextWork
  dsimp only
  split
  · exact hrel
  · rw [fatal_takeWork]
    exact (recut_reclaimStalled _ now).fatal.trans hrel

/-! ## Runs -/

/-- The event is not the return of a stopped worker from a segment that lacks bytes. -/
def Session.harmless (s : Session) : Event → Bool
  | .exit i =>
    match (s.workers[i]?).bind Worker.seg? with
    | none => true
    | some sid => (s.w.segs[sid]?).all fun g => g.remaining = 0
  | _ => true

/-- Without a fatal error, everything that lacks bytes is waiting or being read. -/
def Session.Owned (s : Session) : Prop := s.w.fatal = none → Split.Owned s.w.table s.readers

/-- **One step leaves nothing behind.** -/
theorem step_owned {s s' : Session} {e : Event} (h : s.Owned) (hs : s.harmless e = true)
    (he : s.step e = some s') : s'.Owned := by
  intro hfatal
  cases e with
  | write seg offset data io now =>
    obtain rfl := Option.some.inj he
    rcases onWrite_cases s.w seg offset data io now with
      ⟨f, ht, hf, -⟩ | ⟨g, n, hg, -, hn, hpos, -, -, -, ht, -⟩
    · have hnone : s.w.fatal = none := by
        have hft : (s.w.onWrite seg offset data io now).1.fatal = f := congrArg Table.fatal ht
        cases hw : s.w.fatal with
        | none => rfl
        | some err =>
          rw [hf (by rw [hw]; rfl), hw] at hft
          exact hft.symm.trans hfatal
      have h := h hnone
      dsimp only
      rw [ht]
      exact ⟨h.written, h.done, h.todo, h.queued, h.owned, h.holders⟩
    · have hnone : s.w.fatal = none := (congrArg Table.fatal ht).symm.trans hfatal
      dsimp only
      rw [ht]
      exact Split.Owned.land (h hnone) now hg hn hpos
  | next i failed failures now =>
    simp only [Session.step] at he
    split at he
    · cases he
    · cases he
    · rename_i x _ hx
      obtain rfl := Option.some.inj he
      have hnone : s.w.fatal = none := (fatal_nextWork ..).symm.trans hfatal
      refine Split.Owned.congr (Split.Owned.nextWork (h hnone) _ failures now) fun sid => ?_
      exact readers_next hx failed failures now sid
  | fatal i err =>
    simp only [Session.step] at he
    split at he
    · cases he
    · cases he
    · obtain rfl := Option.some.inj he
      simp only [Session.setWorker, Writer.setFatal] at hfatal
      split at hfatal
      · cases hfatal
      · rename_i hsome
        rw [hfatal] at hsome
        exact absurd rfl hsome
  | saveCtrl now =>
    obtain rfl := Option.some.inj he
    have hr := recut_reclaimStalled s.w now
    have hw := recut_watchdogRequeueStalled (s.w.reclaimStalled now) now
    have hnone : s.w.fatal = none := (hw.fatal.trans hr.fatal).symm.trans hfatal
    exact Split.Owned.recut (Split.Owned.recut (h hnone) hr) hw
  | adaptive action now =>
    obtain rfl := Option.some.inj he
    have hr := recut_applyAdaptiveAction s.w action now
    exact Split.Owned.recut (h (hr.fatal.symm.trans hfatal)) hr
  | spawn =>
    simp only [Session.step] at he
    split at he
    · cases he
    · obtain rfl := Option.some.inj he
      refine Split.Owned.congr (h hfatal) fun sid => ?_
      simp only [Session.readers, total_append, total_cons, total_nil, holds_idle, Nat.add_zero]
  | joined =>
    obtain rfl := Option.some.inj he
    exact h hfatal
  | stop =>
    obtain rfl := Option.some.inj he
    exact h hfatal
  | exit i =>
    simp only [Session.step] at he
    split at he
    · cases he
    · rename_i x hx
      split at he
      · obtain rfl := Option.some.inj he
        have h := h hfatal
        refine ⟨h.written, h.done, h.todo, h.queued, h.owned, fun sid g hg hr => ?_⟩
        -- the worker that returned does not read this segment
        have hnot : x.seg? ≠ some sid := by
          intro hsid
          replace hg : s.w.segs[sid]? = some g := hg
          simp only [Session.harmless, hx, Option.bind_some, hsid, hg, Option.all_some,
            decide_eq_true_eq] at hs
          exact hr hs
        have hreaders := readers_setWorker hx .gone sid
        rw [holds_eq, if_neg hnot, holds_gone, Nat.sub_zero, Nat.add_zero] at hreaders
        rw [hreaders]
        exact h.holders sid g hg hr
      · cases he

theorem start_owned (url : String) (total : UInt64) (opts : SplitOptions) (fileLen : UInt64)
    (loaded : Option CtrlFile) (now : Nat) :
    (Session.start url total opts fileLen loaded now).Owned := by
  intro _
  obtain ⟨hinitial, hqueue, htodo⟩ := bootstrap_spec url total opts fileLen loaded now
  unfold Session.start
  generalize bootstrap url total opts fileLen loaded now = w at hinitial hqueue htodo ⊢
  have hmem : ∀ {i : Nat} {g}, w.segs[i]? = some g → g.Initial := fun hg =>
    hinitial _ (List.mem_of_getElem? hg)
  refine ⟨fun g hg => (hinitial g hg).written, fun g hg => (hinitial g hg).done, htodo, ?_, ?_, ?_⟩
  · intro i g hg hd hq
    show i ∈ w.queue
    rw [hqueue]
    exact mem_rebuildQueue.mpr ⟨g, hg, hq, hd⟩
  · intro i g hg hr
    left
    rw [(hmem hg).queued]
    cases hd : g.done with
    | false => rfl
    | true => exact absurd ((hmem hg).done hd) hr
  · intro i g hg _
    rw [(hmem hg).holders]
    exact Nat.zero_le _

/-- A segment that is read has a reader. -/
theorem exists_holding {s : Session} {sid : Nat} (h : 0 < s.readers sid) :
    ∃ i : Nat, s.workers[i]? = some (.holding sid) := by
  refine Classical.byContradiction fun hn => ?_
  have hzero : s.readers sid = 0 := total_eq_zero.mpr fun x hx => by
    obtain ⟨i, hi⟩ := List.mem_iff_getElem?.mp hx
    refine if_neg fun heq => hn ⟨i, ?_⟩
    rw [hi, heq]
  omega

/-- **Nothing is stranded.**  In a run in which no stopped worker leaves a segment that lacks
bytes, and up to the first fatal error, every segment that lacks bytes is in the queue or read
by a worker; and when all workers have returned and the queue is empty, nothing is missing. -/
theorem run_unstranded (url : String) (total : UInt64) (opts : SplitOptions) (fileLen : UInt64)
    (loaded : Option CtrlFile) (now : Nat) {es : List Event} {t : Session}
    (hrun : Session.run (.start url total opts fileLen loaded now) es = some t)
    (hstop : Along Session.step (fun s e => s.harmless e = true)
      (.start url total opts fileLen loaded now) es)
    (hfatal : t.w.fatal = none) :
    (∀ (sid : Nat) g, t.w.segs[sid]? = some g → g.remaining ≠ 0 →
      sid ∈ t.w.queue ∨ ∃ i : Nat, t.workers[i]? = some (.holding sid)) ∧
    ((∀ x ∈ t.workers, x = .gone) → t.w.queue = [] → t.w.todo = 0) := by
  have h : Split.Owned t.w.table t.readers :=
    run_invariant (I := Session.Owned) (fun s e s' h hs he => step_owned h hs he)
      (start_owned url total opts fileLen loaded now) hstop hrun hfatal
  have hplace : ∀ (sid : Nat) g, t.w.segs[sid]? = some g → g.remaining ≠ 0 →
      sid ∈ t.w.queue ∨ ∃ i : Nat, t.workers[i]? = some (.holding sid) := by
    intro sid g hg hr
    rcases h.owned sid g hg hr with hq | hh
    · exact .inl (h.queued sid g hg (h.undone hg hr) hq)
    · exact .inr (exists_holding (Nat.lt_of_lt_of_le hh (h.holders sid g hg hr)))
  refine ⟨hplace, fun hgone hqueue => ?_⟩
  have hnone : ∀ g ∈ t.w.segs, g.remaining = 0 := by
    intro g hg
    obtain ⟨sid, hsid⟩ := List.mem_iff_getElem?.mp hg
    refine Classical.byContradiction fun hr => ?_
    rcases hplace sid g hsid hr with hq | ⟨i, hi⟩
    · rw [hqueue] at hq
      cases hq
    · cases hgone _ (List.mem_of_getElem? hi)
  have htodo : t.w.todo = Word.sum Seg.remaining t.w.segs := h.todo
  refine UInt64.toNat_inj.mp ?_
  rw [htodo, Word.toNat_sum, total_eq_zero.mpr fun g hg => by rw [hnone g hg]; rfl]
  rfl

/-- The only worker takes the only segment, writes three bytes and asks again. -/
def quarterEvents : List Event :=
  [.next 0 false 0 0, .write 0 0 [1, 2, 3] none 1, .next 0 true 1 2]

def quarterEnd : Session := (Session.run quarterStart quarterEvents).get (by decide +kernel)

theorem quarter_unstranded :
    (∀ (sid : Nat) g, quarterEnd.w.segs[sid]? = some g → g.remaining ≠ 0 →
      sid ∈ quarterEnd.w.queue ∨ ∃ i : Nat, quarterEnd.workers[i]? = some (.holding sid)) ∧
    ((∀ x ∈ quarterEnd.workers, x = .gone) → quarterEnd.w.queue = [] → quarterEnd.w.todo = 0) :=
  run_unstranded "http://host/file" 262144 quarter 0 none 0
    (show Session.run quarterStart quarterEvents = some quarterEnd from (Option.some_get _).symm)
    (by decide +kernel) (by decide +kernel)

/-- The download is cancelled while its only worker reads: the worker returns, the queue is
empty, and every byte is missing. -/
theorem cancelled_stranded : ∃ t,
    Session.run quarterStart [.next 0 false 0 0, .stop, .exit 0] = some t ∧ t.w.fatal = none ∧
      t.workers = [.gone] ∧ t.w.queue = [] ∧ t.w.todo = 262144 :=
  ⟨_, (Option.some_get (by decide +kernel)).symm, by decide +kernel, by decide +kernel,
    by decide +kernel, by decide +kernel⟩

end XferRust.Split
