import XferRust.Split.Session

/-! # The work queue is exact

`QueueExact` says that the queue holds every unfinished segment that is flagged as queued, once,
and no other unfinished one, and that no two workers read the same segment.  It holds of every
state of a run as long as no request for work is answered by a steal: `try_steal` queues the
segment it cuts off, and `next_work` hands that segment out without taking it from the queue.
-/
namespace XferRust.Split
open Tiling StepRun

/-- The queue is exact, and no two workers read the same segment. -/
structure Session.QueueExact (s : Session) : Prop where
  nodup : s.w.queue.Nodup
  queued : ∀ (i : Nat) g, s.w.segs[i]? = some g → g.done = false → (i ∈ s.w.queue ↔ g.queued = true)
  single : ∀ (a b sid : Nat), s.workers[a]? = some (.holding sid) → s.workers[b]? = some (.holding sid) →
    a = b

/-- `next_work` gets to `try_steal`, and there is something to steal. -/
def Writer.steals (w : Writer) (released : Option (Nat × Bool)) (now : Nat) : Bool :=
  let w := released.elim w fun r => w.release r.1
  if w.fatal.isSome || w.finished then false
  else
    let w := w.reclaimStalled now
    (popWork w.segs w.queue).isNone && w.stealTarget.isSome

/-- The event is a request for work that is answered by a steal. -/
def Session.steals (s : Session) : Event → Bool
  | .next i failed _ now =>
    (s.workers[i]?).any fun x => s.w.steals (x.seg?.map fun seg => (seg, failed)) now
  | _ => false

/-! ## The invariant -/

/-- The queue is exact, and a segment has no more readers than holders, of which it has at most
one, and none while it waits in the queue. -/
structure Queued (b : Table) (readers : Nat → Nat) : Prop where
  nodup : b.queue.Nodup
  range : ∀ i ∈ b.queue, i < b.segs.length
  queued : ∀ (i : Nat) s, b.segs[i]? = some s → s.done = false → (i ∈ b.queue ↔ s.queued = true)
  outside : ∀ i, b.segs.length ≤ i → readers i = 0
  holders : ∀ (i : Nat) s, b.segs[i]? = some s → readers i ≤ s.holders ∧ s.holders ≤ 1
  waiting : ∀ (i : Nat) s, b.segs[i]? = some s → s.done = false → s.queued = true → s.holders = 0

theorem nodup_append_singleton {xs : List Nat} {x : Nat} (h : xs.Nodup) (hx : x ∉ xs) :
    (xs ++ [x]).Nodup := by
  refine List.nodup_append.mpr ⟨h, List.pairwise_singleton _ _, fun a ha b hb => ?_⟩
  obtain rfl := List.mem_singleton.mp hb
  exact fun hab => hx (hab ▸ ha)

namespace Queued
variable {b : Table} {readers : Nat → Nat}
variable {sid : Nat} {s : Seg}

theorem cut (h : Queued b readers) (k : UInt64) (t now : Nat) (hs : b.segs[sid]? = some s) :
    Queued (b.cut sid s k t now) readers := by
  have hnew : b.segs.length ∉ b.queue := fun hin => Nat.lt_irrefl _ (h.range _ hin)
  have hin : ∀ i, i < b.segs.length → (i ∈ (b.cut sid s k t now).queue ↔ i ∈ b.queue) := by
    intro i hi
    simp only [Table.cut, List.mem_append, List.mem_singleton]
    rw [or_iff_left (Nat.ne_of_lt hi)]
  have hold : ∀ {i g}, b.segs[i]? = some g → i < b.segs.length := getElem?_lt
  refine ⟨?_, ?_, ?_, ?_, ?_, ?_⟩
  · simp only [Table.cut]
    exact nodup_append_singleton h.nodup hnew
  · intro i hi
    rw [length_cut]
    rcases List.mem_append.mp hi with hi | hi
    · have := h.range i hi
      omega
    · obtain rfl := List.mem_singleton.mp hi
      omega
  · intro i g hg hdone
    rcases getElem?_cut hg with ⟨rfl, rfl⟩ | ⟨-, hg⟩ | ⟨rfl, rfl⟩
    · rw [hin i (hold hs)]
      refine h.queued i s hs ?_
      simp only [Seg.keep, Bool.or_eq_false_iff] at hdone
      exact hdone.1
    · rw [hin i (hold hg)]
      exact h.queued i g hg hdone
    · simp [Table.cut, Seg.rest, Seg.fresh]
  · intro i hi
    rw [length_cut] at hi
    exact h.outside i (by omega)
  · intro i g hg
    rcases getElem?_cut hg with ⟨rfl, rfl⟩ | ⟨-, hg⟩ | ⟨rfl, rfl⟩
    · exact h.holders i s hs
    · exact h.holders i g hg
    · exact ⟨Nat.le_of_eq (h.outside _ (Nat.le_refl _)), Nat.zero_le 1⟩
  · intro i g hg hdone hqueued
    rcases getElem?_cut hg with ⟨rfl, rfl⟩ | ⟨-, hg⟩ | ⟨rfl, rfl⟩
    · simp only [Seg.keep, Bool.or_eq_false_iff] at hdone
      exact h.waiting i s hs hdone.1 hqueued
    · exact h.waiting i g hg hdone hqueued
    · rfl

theorem land (h : Queued b readers) (n : UInt64) (now : Nat) (hs : b.segs[sid]? = some s) :
    Queued (b.land sid s n now) readers := by
  have hundone : (s.land n now).done = false → s.done = false := by
    intro hd
    simp only [Seg.land, Bool.or_eq_false_iff] at hd
    exact hd.1
  refine ⟨h.nodup, ?_, ?_, ?_, ?_, ?_⟩
  · intro i hi
    simp only [Table.land, List.length_set]
    exact h.range i hi
  · intro i g hg hdone
    rcases getElem?_set_cases hg with ⟨rfl, rfl⟩ | ⟨-, hg⟩
    · exact h.queued i s hs (hundone hdone)
    · exact h.queued i g hg hdone
  · intro i hi
    simp only [Table.land, List.length_set] at hi
    exact h.outside i hi
  · intro i g hg
    rcases getElem?_set_cases hg with ⟨rfl, rfl⟩ | ⟨-, hg⟩
    · exact h.holders i s hs
    · exact h.holders i g hg
  · intro i g hg hdone hqueued
    rcases getElem?_set_cases hg with ⟨rfl, rfl⟩ | ⟨-, hg⟩
    · exact h.waiting i s hs (hundone hdone) hqueued
    · exact h.waiting i g hg hdone hqueued

/-- A worker less reads segment `sid`; it was there. -/
theorem giveBack (h : Queued b readers) (hs : b.segs[sid]? = some s) :
    Queued (b.giveBack sid s) fun i => readers i - if sid = i then 1 else 0 := by
  refine ⟨h.nodup, ?_, ?_, ?_, ?_, ?_⟩
  · intro i hi
    simp only [Table.giveBack, List.length_set]
    exact h.range i hi
  · intro i g hg hdone
    rcases getElem?_set_cases hg with ⟨rfl, rfl⟩ | ⟨-, hg⟩
    · exact h.queued i s hs hdone
    · exact h.queued i g hg hdone
  · intro i hi
    simp only [Table.giveBack, List.length_set] at hi
    rw [h.outside i hi]
    exact Nat.zero_sub _
  · intro i g hg
    rcases getElem?_set_cases hg with ⟨rfl, rfl⟩ | ⟨hne, hg⟩
    · have := h.holders i s hs
      simp only [Seg.giveBack, if_pos]
      omega
    · have := h.holders i g hg
      omega
  · intro i g hg hdone hqueued
    rcases getElem?_set_cases hg with ⟨rfl, rfl⟩ | ⟨-, hg⟩
    · have := h.waiting i s hs hdone hqueued
      simp only [Seg.giveBack]
      omega
    · exact h.waiting i g hg hdone hqueued

/-- The last worker that read segment `sid` puts it back into the queue. -/
theorem requeue (h : Queued b readers) (hs : b.segs[sid]? = some s) (hdone : s.done = false)
    (hqueued : s.queued = false) (hlast : s.holders - 1 = 0) :
    Queued (b.requeue sid s) fun i => readers i - if sid = i then 1 else 0 := by
  have hnew : sid ∉ b.queue := by
    rw [h.queued sid s hs hdone, hqueued]
    decide
  have hback := h.giveBack hs
  refine ⟨?_, ?_, ?_, ?_, ?_, ?_⟩
  · simp only [Table.requeue]
    exact nodup_append_singleton h.nodup hnew
  · intro i hi
    simp only [Table.requeue, List.length_set]
    rcases List.mem_append.mp hi with hi | hi
    · exact h.range i hi
    · obtain rfl := List.mem_singleton.mp hi
      exact getElem?_lt hs
  · intro i g hg hd
    simp only [Table.requeue, List.mem_append, List.mem_singleton]
    rcases getElem?_set_cases hg with ⟨rfl, rfl⟩ | ⟨hne, hg⟩
    · simp
    · rw [h.queued i g hg hd]
      simp [hne]
  · intro i hi
    refine hback.outside i ?_
    simp only [Table.requeue, Table.giveBack, List.length_set] at hi ⊢
    exact hi
  · intro i g hg
    rcases getElem?_set_cases hg with ⟨rfl, rfl⟩ | ⟨hne, hg⟩
    · have := h.holders i s hs
      simp only [Seg.giveBack, if_pos]
      omega
    · have := h.holders i g hg
      omega
  · intro i g hg hd hq
    rcases getElem?_set_cases hg with ⟨rfl, rfl⟩ | ⟨-, hg⟩
    · exact hlast
    · exact h.waiting i g hg hd hq

/-- A worker takes the first unfinished segment of the queue. -/
theorem take (h : Queued b readers) {rest : List Nat} (now : Nat)
    (hpop : Writer.popWork b.segs b.queue = some (sid, rest)) (hs : b.segs[sid]? = some s) :
    Queued ({ b with queue := rest }.take sid s now)
      fun i => readers i + if sid = i then 1 else 0 := by
  obtain ⟨dropped, s', hq, hs', hdone, hdropped⟩ := popWork_some hpop
  obtain rfl : s = s' := Option.some.inj (hs.symm.trans hs')
  have hnodup := h.nodup
  rw [hq, List.nodup_append, List.nodup_cons] at hnodup
  obtain ⟨-, ⟨hnot, hrest⟩, -⟩ := hnodup
  have hlen := getElem?_lt hs
  have hzero : s.holders = 0 :=
    h.waiting sid s hs hdone ((h.queued sid s hs hdone).mp (by rw [hq]; simp))
  refine ⟨hrest, ?_, ?_, ?_, ?_, ?_⟩
  · intro i hi
    simp only [Table.take, List.length_set]
    exact h.range i (by rw [hq]; simp [show i ∈ rest from hi])
  · intro i g hg hd
    simp only [Table.take]
    rcases getElem?_set_cases hg with ⟨rfl, rfl⟩ | ⟨hne, hg⟩
    · simp [Seg.take, hnot]
    · rw [← h.queued i g hg hd, hq, List.mem_append, List.mem_cons]
      constructor
      · intro hi
        exact .inr (.inr hi)
      · rintro (hi | hi | hi)
        · rw [hdropped i hi g hg] at hd
          cases hd
        · exact absurd hi hne
        · exact hi
  · intro i hi
    simp only [Table.take, List.length_set] at hi
    rw [h.outside i hi, if_neg (by omega)]
  · intro i g hg
    rcases getElem?_set_cases hg with ⟨rfl, rfl⟩ | ⟨hne, hg⟩
    · have := h.holders i s hs
      simp only [Seg.take, if_pos]
      omega
    · have := h.holders i g hg
      rw [if_neg fun h => hne h.symm]
      omega
  · intro i g hg hd hq'
    rcases getElem?_set_cases hg with ⟨rfl, rfl⟩ | ⟨-, hg⟩
    · cases hq'
    · exact h.waiting i g hg hd hq'

/-- Nothing unfinished is in the queue, which is emptied. -/
theorem empty (h : Queued b readers) (hpop : Writer.popWork b.segs b.queue = none) :
    Queued { b with queue := [] } readers := by
  refine ⟨List.nodup_nil, nofun, ?_, h.outside, h.holders, h.waiting⟩
  intro i g hg hdone
  rw [← h.queued i g hg hdone]
  constructor
  · intro hi
    cases hi
  · intro hi
    rw [popWork_none hpop i hi g hg] at hdone
    cases hdone

theorem recut (h : Queued b readers) {b' : Table} (hr : Recut b b') : Queued b' readers :=
  hr.invariant (I := fun b => Queued b readers) (fun _ _ _ k t now hs _ h => h.cut k t now hs) h

theorem mono (h : Queued b readers) {readers' : Nat → Nat} (hle : ∀ i, readers' i ≤ readers i) :
    Queued b readers' := by
  refine ⟨h.nodup, h.range, h.queued, ?_, ?_, h.waiting⟩
  · intro i hi
    exact Nat.le_zero.mp (h.outside i hi ▸ hle i)
  · intro i s hs
    exact ⟨Nat.le_trans (hle i) (h.holders i s hs).1, (h.holders i s hs).2⟩

theorem congr (h : Queued b readers) {readers' : Nat → Nat} (he : ∀ i, readers' i = readers i) :
    Queued b readers' := h.mono fun i => Nat.le_of_eq (he i)

end Queued

/-! ## Dispatch -/

namespace Queued
variable {w : Writer} {readers : Nat → Nat}

theorem release (h : Queued w.table readers) (sid : Nat) :
    Queued (w.release sid).table fun i => readers i - if sid = i then 1 else 0 := by
  rcases release_cases w sid with ⟨-, ht⟩ | ⟨s, hs, ⟨hdone, hqueued, hlast, ht⟩ | ⟨-, ht⟩⟩
  · rw [ht]
    exact h.mono fun i => Nat.sub_le _ _
  · rw [ht]
    exact h.requeue hs hdone hqueued hlast
  · rw [ht]
    exact h.giveBack hs

/-- The releasing part of a request. -/
theorem released (h : Queued w.table readers) (released : Option (Nat × Bool)) :
    Queued (released.elim w fun r => w.release r.1).table
      fun i => readers i - if released.map Prod.fst = some i then 1 else 0 := by
  cases released with
  | none => exact h.congr fun i => by simp
  | some r => exact (h.release r.1).congr fun i => by simp

/-- A request that is not answered by a steal keeps the queue exact. -/
theorem nextWork (h : Queued w.table readers) {released : Option (Nat × Bool)}
    (failures : UInt32) {now : Nat} (hs : w.steals released now = false) :
    Queued (w.nextWork released failures now).1.table fun i =>
      readers i - (if released.map Prod.fst = some i then 1 else 0) +
        if (w.nextWork released failures now).2.seg? = some i then 1 else 0 := by
  have hrel := h.released released
  unfold Writer.nextWork
  unfold Writer.steals at hs
  dsimp only at hs ⊢
  split
  · exact hrel.congr fun i => by simp [Assignment.seg?]
  · rename_i hend
    rw [if_neg hend] at hs
    have hreclaim := hrel.recut (recut_reclaimStalled _ now)
    rcases takeWork_cases (Writer.reclaimStalled (released.elim w fun r => w.release r.1) now)
      failures now with ⟨sid, s, rest, hpop, hs', ht, ha⟩ | ⟨hpop, htarget, -⟩ |
        ⟨hpop, -, ht, ha⟩
    · rw [ht, ha]
      exact (hreclaim.take now hpop hs').congr fun i => by simp
    · rw [hpop, htarget] at hs
      cases hs
    · rw [ht, ha]
      exact (hreclaim.empty hpop).congr fun i => by simp

end Queued

/-- **A steal** leaves the number it hands out in the queue. -/
theorem steals_spec {w : Writer} {released : Option (Nat × Bool)} (failures : UInt32) {now : Nat}
    (hs : w.steals released now = true) :
    ∃ i g, (w.nextWork released failures now).1.segs[i]? = some g ∧ g.done = false ∧
      g.queued = false ∧ i ∈ (w.nextWork released failures now).1.queue := by
  unfold Writer.steals at hs
  unfold Writer.nextWork
  dsimp only at hs ⊢
  split
  · rename_i hend
    rw [if_pos hend] at hs
    cases hs
  · rename_i hend
    rw [if_neg hend, Bool.and_eq_true, Option.isNone_iff_eq_none] at hs
    generalize Writer.reclaimStalled (released.elim w fun r => w.release r.1) now = v at hs ⊢
    rcases takeWork_cases v failures now with
      ⟨sid, s, rest, hpop, -⟩ | ⟨-, -, sid, s, k, hg, -, -, -, ht, -⟩ |
        ⟨-, htarget, -⟩
    · rw [hs.1] at hpop
      cases hpop
    · have hsegs : (v.takeWork failures now).1.segs = _ := congrArg Table.segs ht
      have hqueue : (v.takeWork failures now).1.queue = _ := congrArg Table.queue ht
      refine ⟨v.segs.length, (s.rest k now).take now, ?_, rfl, rfl, ?_⟩
      · rw [hsegs]
        simp only [Table.take]
        rw [List.getElem?_set_self]
        rw [length_cut]
        exact Nat.lt_succ_self _
      · rw [hqueue]
        simp [Table.take, Table.cut, Writer.table]
    · rw [htarget] at hs
      cases hs.2

/-! ## Runs -/

/-- What the writer of a session keeps and whom its workers read. -/
def Session.Queued (s : Session) : Prop := Split.Queued s.w.table s.readers

/-- **One step without a steal keeps the queue exact.** -/
theorem step_queued {s s' : Session} {e : Event} (h : s.Queued) (hs : ¬ s.steals e = true)
    (he : s.step e = some s') : s'.Queued := by
  cases e with
  | write seg offset data io now =>
    obtain rfl := Option.some.inj he
    unfold Session.Queued
    dsimp only
    rcases onWrite_cases s.w seg offset data io now with
      ⟨f, ht, -⟩ | ⟨g, n, hg, -, -, -, -, -, -, ht, -⟩
    · rw [ht]
      exact ⟨h.nodup, h.range, h.queued, h.outside, h.holders, h.waiting⟩
    · rw [ht]
      exact Queued.land h n now hg
  | next i failed failures now =>
    simp only [Session.step] at he
    split at he
    · cases he
    · cases he
    · rename_i x _ hx
      obtain rfl := Option.some.inj he
      simp only [Session.steals, hx, Option.any_some, Bool.not_eq_true] at hs
      have hnext := Queued.nextWork h failures hs
      exact Queued.congr hnext fun sid => readers_next hx failed failures now sid
  | fatal i err =>
    simp only [Session.step] at he
    split at he
    · cases he
    · cases he
    · rename_i x _ hx
      obtain rfl := Option.some.inj he
      have hq : Split.Queued (s.w.setFatal err).table s.readers := by
        unfold Writer.setFatal
        split
        · exact ⟨h.nodup, h.range, h.queued, h.outside, h.holders, h.waiting⟩
        · exact h
      refine hq.mono fun sid => ?_
      have := readers_setWorker (s := { s with w := s.w.setFatal err }) hx .gone sid
      rw [holds_gone] at this
      exact Nat.le_trans (Nat.le_of_eq this) (Nat.sub_le _ _)
  | saveCtrl now =>
    obtain rfl := Option.some.inj he
    exact Queued.recut (Queued.recut h (recut_reclaimStalled s.w now))
      (recut_watchdogRequeueStalled _ now)
  | adaptive action now =>
    obtain rfl := Option.some.inj he
    exact Queued.recut h (recut_applyAdaptiveAction s.w action now)
  | spawn =>
    simp only [Session.step] at he
    split at he
    · cases he
    · obtain rfl := Option.some.inj he
      refine Queued.congr h fun sid => ?_
      simp only [Session.readers, total_append, total_cons, total_nil, holds_idle,
        Nat.add_zero]
  | joined =>
    obtain rfl := Option.some.inj he
    exact h
  | stop =>
    obtain rfl := Option.some.inj he
    exact h
  | exit i =>
    simp only [Session.step] at he
    split at he
    · cases he
    · rename_i x hx
      split at he
      · obtain rfl := Option.some.inj he
        refine Queued.mono h fun sid => ?_
        have := readers_setWorker hx .gone sid
        rw [holds_gone] at this
        omega
      · cases he

theorem Session.Queued.exact {s : Session} (h : s.Queued) : s.QueueExact := by
  refine ⟨h.nodup, h.queued, fun a b sid ha hb => ?_⟩
  refine Classical.byContradiction fun hab => ?_
  have htwo := two_le_readers hab ha hb
  by_cases hlt : sid < s.w.segs.length
  · have := h.holders sid _ (List.getElem?_eq_getElem hlt)
    omega
  · have := h.outside sid (Nat.le_of_not_lt hlt)
    omega

theorem mem_rebuildQueue {segs : List Seg} {i : Nat} :
    i ∈ rebuildQueue segs ↔ ∃ s, segs[i]? = some s ∧ s.queued = true ∧ s.done = false := by
  unfold rebuildQueue
  rw [List.mem_filter, List.mem_range]
  constructor
  · rintro ⟨-, h⟩
    obtain ⟨s, hs, hq⟩ := (Option.any_eq_true _ _).mp h
    simp only [Bool.and_eq_true, Bool.not_eq_true'] at hq
    exact ⟨s, hs, hq⟩
  · rintro ⟨s, hs, hq, hd⟩
    refine ⟨getElem?_lt hs, ?_⟩
    rw [hs]
    simp [hq, hd]

/-- A segment at the start: nobody holds it, and it waits in the queue unless it is finished. -/
structure Seg.Initial (s : Seg) : Prop where
  holders : s.holders = 0
  queued : s.queued = !s.done
  written : s.written ≤ s.end_ - s.start
  done : s.done = true → s.remaining = 0

theorem recoverSeg_initial (now : Nat) (s : CtrlSeg) : (recoverSeg now s).Initial := by
  have hle : min s.w (s.e - s.s) ≤ s.e - s.s := by
    rw [UInt64.le_iff_toNat_le, Word.toNat_min]
    exact Nat.min_le_right _ _
  refine ⟨rfl, rfl, hle, fun hd => ?_⟩
  simp only [recoverSeg, ge_iff_le, decide_eq_true_eq] at hd
  have heq := UInt64.le_antisymm hle hd
  simp only [Seg.remaining, recoverSeg, heq]
  grind

theorem fresh_initial (a b : UInt64) (now : Nat) : (Seg.fresh a b now).Initial :=
  ⟨rfl, rfl, UInt64.le_iff_toNat_le.mpr (Nat.zero_le _), nofun⟩

/-- The writer at the start. -/
theorem bootstrap_spec (url : String) (total : UInt64) (opts : SplitOptions) (fileLen : UInt64)
    (loaded : Option CtrlFile) (now : Nat) :
    let w := bootstrap url total opts fileLen loaded now
    (∀ s ∈ w.segs, s.Initial) ∧ w.queue = rebuildQueue w.segs ∧
      w.todo = Word.sum Seg.remaining w.segs := by
  unfold bootstrap
  split
  · refine ⟨fun s hs => ?_, rfl, rfl⟩
    obtain ⟨g, -, rfl⟩ := List.mem_map.mp hs
    exact recoverSeg_initial now g
  · refine ⟨fun s hs => ?_, rfl, rfl⟩
    simp only [Writer.ofTable, initialSegs] at hs
    split at hs
    · obtain ⟨i, -, rfl⟩ := List.mem_map.mp hs
      exact fresh_initial _ _ now
    · cases hs

theorem readers_ofWriter (w : Writer) (sid : Nat) : (Session.ofWriter w).readers sid = 0 := by
  refine total_eq_zero.mpr fun x hx => ?_
  rw [List.eq_of_mem_replicate hx]
  rfl

theorem start_queued (url : String) (total : UInt64) (opts : SplitOptions) (fileLen : UInt64)
    (loaded : Option CtrlFile) (now : Nat) :
    (Session.start url total opts fileLen loaded now).Queued := by
  obtain ⟨hinitial, hqueue, -⟩ := bootstrap_spec url total opts fileLen loaded now
  unfold Session.start
  generalize bootstrap url total opts fileLen loaded now = w at hinitial hqueue ⊢
  have hmem : ∀ {i g}, w.segs[i]? = some g → g ∈ w.segs := List.mem_of_getElem?
  refine ⟨?_, ?_, ?_, ?_, ?_, ?_⟩
  · show w.queue.Nodup
    rw [hqueue]
    exact List.nodup_range.filter _
  · intro i hi
    replace hi : i ∈ w.queue := hi
    rw [hqueue] at hi
    obtain ⟨g, hg, -⟩ := mem_rebuildQueue.mp hi
    exact getElem?_lt hg
  · intro i g hg hdone
    show i ∈ w.queue ↔ _
    rw [hqueue, mem_rebuildQueue]
    constructor
    · rintro ⟨g', hg', hq, -⟩
      obtain rfl : g' = g := Option.some.inj (hg'.symm.trans hg)
      exact hq
    · intro hq
      exact ⟨g, hg, hq, hdone⟩
  · intro i _
    exact readers_ofWriter w i
  · intro i g hg
    rw [readers_ofWriter, (hinitial g (hmem hg)).holders]
    exact ⟨Nat.le_refl 0, Nat.zero_le 1⟩
  · intro i g hg _ _
    exact (hinitial g (hmem hg)).holders

/-- **The queue is exact** in every state of a run if and only if no request for work in it is
answered by a steal. -/
theorem run_queueExact (url : String) (total : UInt64) (opts : SplitOptions) (fileLen : UInt64)
    (loaded : Option CtrlFile) (now : Nat) {es : List Event} {t : Session}
    (hrun : Session.run (.start url total opts fileLen loaded now) es = some t) :
    Everywhere Session.step Session.QueueExact (.start url total opts fileLen loaded now) es ↔
      Along Session.step (fun s e => ¬ s.steals e = true)
        (.start url total opts fileLen loaded now) es := by
  refine everywhere_iff_along (J := Session.Queued) (fun s h => h.exact)
    (fun s e s' h hs he => step_queued h hs he) (fun s e s' _ hs he hexact => ?_)
    (start_queued url total opts fileLen loaded now) hrun
  have hs := Classical.not_not.mp hs
  cases e with
  | next i failed failures now =>
    simp only [Session.step] at he
    split at he
    · cases he
    · cases he
    · rename_i x _ hx
      obtain rfl := Option.some.inj he
      simp only [Session.steals, hx, Option.any_some] at hs
      obtain ⟨j, g, hg, hdone, hqueued, hin⟩ := steals_spec failures hs
      rw [(hexact.queued j g hg hdone).mp hin] at hqueued
      cases hqueued
  | _ => cases hs

/-- Options with parts of at least 256 KiB and an adaptive pool. -/
def quarter : SplitOptions where
  connections := 4
  minSplitSize := 262144
  adaptive := some ⟨4⟩
  connections_pos := by decide
  connections_le := by decide
  minSplit_ge := by decide
  minSplit_le := by decide

/-- The download of 256 KiB: one segment, and so one worker at first. -/
def quarterStart : Session := .start "http://host/file" 262144 quarter 0 none 0

/-- The first worker takes the segment. -/
theorem quarter_queueExact :
    Everywhere Session.step Session.QueueExact quarterStart [.next 0 false 0 0] :=
  (run_queueExact "http://host/file" 262144 quarter 0 none 0
    (t := (Session.run quarterStart [.next 0 false 0 0]).get (by decide +kernel))
    (Option.some_get _).symm).mpr (by decide +kernel)

/-- The scheduler lets a second worker in, which steals the second half; then the request of the
first worker fails, and what it gets next is the half that the second one reads. -/
def stolenEvents : List Event :=
  [.next 0 false 0 0, .adaptive .spawn 0, .spawn, .joined, .next 1 false 0 0, .next 0 true 1 0]

theorem stolen_not_queueExact : ∃ t, Session.run quarterStart stolenEvents = some t ∧
    t.workers = [.holding 1, .holding 1] ∧ ¬ t.QueueExact := by
  have hworkers : ((Session.run quarterStart stolenEvents).get (by decide +kernel)).workers =
      [.holding 1, .holding 1] := by decide +kernel
  refine ⟨_, (Option.some_get _).symm, hworkers, fun h => ?_⟩
  have := h.single 0 1 1 (by rw [hworkers]; rfl) (by rw [hworkers]; rfl)
  cases this

end XferRust.Split
