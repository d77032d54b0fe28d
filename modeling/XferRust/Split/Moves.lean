import XferRust.Split.Writer

/-! # What a command does to the segment table

Steals, handoffs, reclaims, the watchdog and the scheduler's shrinks all do one thing to the
segment table: they cut the missing part of a segment in two and queue the second half as a
new segment (`Recut`).  A write moves the watermark of one segment (`Table.land`), and dispatch
changes who reads a segment and nothing else (`Table.take`, `Table.giveBack`).  The spec lemma
of a command says which of these moves it makes; the invariants are proved for the moves.
-/
namespace XferRust.Split
open Writer

/-- The part of the writer that the invariants speak of. -/
structure Table where
  total : UInt64
  base : UInt64
  segs : List Seg
  queue : List Nat
  todo : UInt64
  completed : UInt64
  fatal : Option HttpError

def Writer.table (w : Writer) : Table :=
  ⟨w.total, w.base, w.segs, w.queue, w.todo, w.completed, w.fatal⟩

/-! ## The moves -/

/-- The first part of segment `s` after a cut `k` bytes behind its watermark.  Nothing left
means done. -/
def Seg.keep (s : Seg) (k : UInt64) (t : Nat) : Seg :=
  { s with
    end_ := s.start + s.written + k
    endShared := s.start + s.written + k
    lastProgress := t
    done := s.done || k = 0 }

/-- The second part of segment `s` after a cut `k` bytes behind its watermark. -/
def Seg.rest (s : Seg) (k : UInt64) (now : Nat) : Seg :=
  .fresh (s.start + s.written + k) s.end_ now

/-- Segment `s` after `n` more bytes. -/
def Seg.land (s : Seg) (n : UInt64) (now : Nat) : Seg :=
  { s with
    written := s.written + n
    lastProgress := now
    done := s.done || s.written + n = s.end_ - s.start }

/-- Segment `s` with one more worker. -/
def Seg.take (s : Seg) (now : Nat) : Seg :=
  { s with queued := false, holders := s.holders + 1, lastProgress := now }

/-- Segment `s` with one worker less. -/
def Seg.giveBack (s : Seg) : Seg := { s with holders := s.holders - 1 }

/-- The table after a cut of segment `sid`, which is `s`. -/
def Table.cut (b : Table) (sid : Nat) (s : Seg) (k : UInt64) (t now : Nat) : Table :=
  { b with
    segs := b.segs.set sid (s.keep k t) ++ [s.rest k now]
    queue := b.queue ++ [b.segs.length] }

/-- The table after `n` more bytes of segment `sid`, which is `s`. -/
def Table.land (b : Table) (sid : Nat) (s : Seg) (n : UInt64) (now : Nat) : Table :=
  { b with
    segs := b.segs.set sid (s.land n now)
    todo := b.todo - n
    completed := b.completed + n }

/-- The table after a worker has taken segment `sid`, which is `s`. -/
def Table.take (b : Table) (sid : Nat) (s : Seg) (now : Nat) : Table :=
  { b with segs := b.segs.set sid (s.take now) }

/-- The table after a worker has given segment `sid` back, which is `s`. -/
def Table.giveBack (b : Table) (sid : Nat) (s : Seg) : Table :=
  { b with segs := b.segs.set sid s.giveBack }

/-- As `Table.giveBack`, and the segment goes to the end of the queue. -/
def Table.requeue (b : Table) (sid : Nat) (s : Seg) : Table :=
  { b with
    segs := b.segs.set sid { s.giveBack with queued := true }
    queue := b.queue ++ [sid] }

/-- Any number of cuts, each of which leaves bytes for the new segment. -/
inductive Recut : Table → Table → Prop
  | refl (b : Table) : Recut b b
  | cut (b : Table) (sid : Nat) (s : Seg) (k : UInt64) (t now : Nat) (hs : b.segs[sid]? = some s)
      (hk : k < s.remaining) : Recut b (b.cut sid s k t now)
  | trans {b b' b'' : Table} (h : Recut b b') (h' : Recut b' b'') : Recut b b''

variable {b : Table}

/-- **Cut rule.**  What every cut keeps, every sequence of cuts keeps. -/
theorem Recut.invariant {I : Table → Prop}
    (hcut : ∀ b sid s k t now, b.segs[sid]? = some s → k < s.remaining → I b →
      I (b.cut sid s k t now)) {b' : Table} (h : Recut b b') (hb : I b) : I b' := by
  induction h with
  | refl b => exact hb
  | cut b sid s k t now hs hk => exact hcut b sid s k t now hs hk hb
  | trans _ _ ih ih' => exact ih' (ih hb)

theorem Recut.fatal {b' : Table} (h : Recut b b') : b'.fatal = b.fatal := by
  induction h with
  | refl b => rfl
  | cut b sid s k t now hs hk => rfl
  | trans _ _ ih ih' => exact ih'.trans ih

/-! ## Arithmetic of one segment

All in wrapping arithmetic: none of these needs the table to be in order.
-/

section Arithmetic
variable {s : Seg}

theorem sub_pos_eq (s : Seg) : s.end_ - (s.start + s.written) = s.remaining := by
  unfold Seg.remaining
  grind

theorem pos_add_remaining (s : Seg) : s.start + s.written + s.remaining = s.end_ := by
  unfold Seg.remaining
  grind

theorem remaining_pos_of_lt (h : s.start + s.written < s.end_) : 0 < s.remaining := by
  rw [← sub_pos_eq]
  rw [UInt64.lt_iff_toNat_lt] at h ⊢
  rw [UInt64.toNat_sub_of_le _ _ (UInt64.le_iff_toNat_le.mpr (Nat.le_of_lt h))]
  exact Nat.sub_pos_of_lt h

theorem half_lt {a : UInt64} (h : 0 < a) : a / 2 < a := by
  rw [UInt64.lt_iff_toNat_lt] at h ⊢
  rw [Word.toNat_half]
  exact Nat.div_lt_self h (by decide)

@[simp] theorem remaining_keep (s : Seg) (k : UInt64) (t : Nat) : (s.keep k t).remaining = k := by
  simp only [Seg.keep, Seg.remaining]
  grind

@[simp] theorem remaining_rest (s : Seg) (k : UInt64) (now : Nat) :
    (s.rest k now).remaining = s.remaining - k := by
  simp only [Seg.rest, Seg.fresh, Seg.remaining]
  grind

@[simp] theorem remaining_land (s : Seg) (n : UInt64) (now : Nat) :
    (s.land n now).remaining = s.remaining - n := by
  simp only [Seg.land, Seg.remaining]
  grind

/-- The bytes of a segment are those below its watermark and those it lacks. -/
theorem toNat_size (h : s.written ≤ s.end_ - s.start) :
    (s.end_ - s.start).toNat = s.written.toNat + s.remaining.toNat := by
  rw [UInt64.le_iff_toNat_le] at h
  unfold Seg.remaining
  rw [Word.toNat_sub h]
  omega

theorem getElem?_lt {α : Type} {xs : List α} {i : Nat} {x : α} (h : xs[i]? = some x) :
    i < xs.length := (List.getElem?_eq_some_iff.mp h).1

end Arithmetic

/-! ## Reading the table after a move -/

variable {i : Nat}

theorem getElem?_set_cases {α : Type} {xs : List α} {j : Nat} {y z : α}
    (h : (xs.set i y)[j]? = some z) : (j = i ∧ z = y) ∨ (j ≠ i ∧ xs[j]? = some z) := by
  by_cases hij : i = j
  · subst hij
    rw [List.getElem?_set_self' ] at h
    obtain ⟨x, -, hx⟩ := Option.map_eq_some_iff.mp h
    exact .inl ⟨rfl, hx.symm⟩
  · rw [List.getElem?_set_ne hij] at h
    exact .inr ⟨fun h => hij h.symm, h⟩

variable {sid : Nat}

/-- The segments after a cut. -/
theorem getElem?_cut {s : Seg} {k : UInt64} {t now : Nat} {g : Seg}
    (h : (b.cut sid s k t now).segs[i]? = some g) :
    (i = sid ∧ g = s.keep k t) ∨ (i ≠ sid ∧ b.segs[i]? = some g) ∨
      (i = b.segs.length ∧ g = s.rest k now) := by
  simp only [Table.cut] at h
  by_cases hi : i < b.segs.length
  · rw [List.getElem?_append_left (by rw [List.length_set]; exact hi)] at h
    rcases getElem?_set_cases h with h | h
    · exact .inl h
    · exact .inr (.inl h)
  · rw [List.getElem?_append_right (by rw [List.length_set]; omega), List.length_set] at h
    have hlt := getElem?_lt h
    simp only [List.length_cons, List.length_nil] at hlt
    obtain rfl : i = b.segs.length := by omega
    rw [Nat.sub_self] at h
    exact .inr (.inr ⟨rfl, (Option.some.inj h).symm⟩)

theorem length_cut (b : Table) (sid : Nat) (s : Seg) (k : UInt64) (t now : Nat) :
    (b.cut sid s k t now).segs.length = b.segs.length + 1 := by
  simp [Table.cut]

theorem getElem?_cut_new (b : Table) (sid : Nat) (s : Seg) (k : UInt64) (t now : Nat) :
    (b.cut sid s k t now).segs[b.segs.length]? = some (s.rest k now) := by
  simp only [Table.cut]
  rw [List.getElem?_append_right (Nat.le_of_eq List.length_set), List.length_set, Nat.sub_self]
  rfl

/-! ## Writes -/

variable (w : Writer)

/-- **A write** changes nothing but the error slot, or it puts bytes at the watermark of a
segment, at most as many as the segment lacks; then neither the watermark nor the end of the
write wraps. -/
theorem onWrite_cases (sid : Nat) (offset : UInt64) (data : List UInt8) (io : Option String)
    (now : Nat) :
    (∃ f, (w.onWrite sid offset data io now).1.table = { w.table with fatal := f } ∧
      (w.fatal.isSome → f = w.fatal) ∧ (w.onWrite sid offset data io now).2 = none) ∨
    ∃ s n, w.segs[sid]? = some s ∧ offset = s.start + s.written ∧ n ≤ s.remaining ∧
      0 < n.toNat ∧ n.toNat ≤ data.length ∧
      s.start.toNat + s.written.toNat = offset.toNat ∧ offset.toNat + n.toNat ≤ s.end_.toNat ∧
      (w.onWrite sid offset data io now).1.table = w.table.land sid s n now ∧
      (w.onWrite sid offset data io now).2 = some (offset, data.take n.toNat) := by
  unfold onWrite
  split
  · exact .inl ⟨w.fatal, rfl, fun _ => rfl, rfl⟩
  rename_i hfatal
  split
  · exact .inl ⟨w.fatal, rfl, fun _ => rfl, rfl⟩
  rename_i s hs
  dsimp only
  split
  · exact .inl ⟨w.fatal, rfl, fun _ => rfl, rfl⟩
  rename_i hn
  split
  · rename_i msg
    refine .inl ⟨some (.io msg), ?_, fun h => absurd h hfatal, rfl⟩
    unfold setFatal
    rw [if_pos (by simpa using hfatal)]
    rfl
  · -- the write goes through: it continues at the watermark
    right
    unfold acceptedLen at hn ⊢
    split at hn
    · exact absurd rfl hn
    rename_i hcond
    simp only [Bool.or_eq_true, decide_eq_true_eq, not_or, Decidable.not_not] at hcond
    obtain ⟨⟨hstart, hend⟩, hat⟩ := hcond
    have hlt : (s.end_ - offset).toNat < 18446744073709551616 := (s.end_ - offset).toNat_lt
    have hnat : (UInt64.ofNat (min (s.end_ - offset).toNat data.length)).toNat =
        min (s.end_ - offset).toNat data.length := by
      rw [UInt64.toNat_ofNat']
      exact Nat.mod_eq_of_lt (by omega)
    have hoffset : offset = s.start + s.written := by
      rw [← hat]
      grind
    have hwritten : offset + UInt64.ofNat (min (s.end_ - offset).toNat data.length) - s.start =
        s.written + UInt64.ofNat (min (s.end_ - offset).toNat data.length) := by
      rw [hoffset]
      grind
    have hstart' := UInt64.le_iff_toNat_le.mp (UInt64.not_lt.mp hstart)
    have hend' := UInt64.lt_iff_toNat_lt.mp (UInt64.not_le.mp hend)
    have hat' := Word.toNat_sub hstart'
    rw [hat] at hat'
    have hroom := Word.toNat_sub (Nat.le_of_lt hend')
    rw [if_neg (by simp [hstart, hend, hat])]
    refine ⟨s, UInt64.ofNat (min (s.end_ - offset).toNat data.length), hs, hoffset, ?_, ?_, ?_,
      by omega, ?_, ?_, ?_⟩
    · rw [UInt64.le_iff_toNat_le, hnat, ← sub_pos_eq, ← hoffset]
      exact Nat.min_le_left _ _
    · rw [hnat]
      exact Nat.pos_of_ne_zero hn
    · rw [hnat]
      exact Nat.min_le_right _ _
    · rw [hnat]
      omega
    · simp only [landed, Writer.table, Table.land, Seg.land, hwritten]
    · rw [hnat]

/-! ## The commands that cut -/

/-- A split is a cut when the cut leaves bytes on both sides. -/
theorem table_splitOff {w : Writer} {s : Seg} {k : UInt64} (hk : k ≠ 0) (now : Nat) :
    (w.splitOff sid s (s.start + s.written + k) now).table =
      w.table.cut sid s k s.lastProgress now := by
  have hd : (s.done || decide (k = 0)) = s.done := by simp [hk]
  simp only [splitOff, Writer.table, Table.cut, Seg.keep, Seg.rest, hd]

/-- **A handoff** is a cut, or nothing. -/
theorem recut_handoff (sid : Nat) (whole force : Bool) (now : Nat) :
    Recut w.table (w.handoff sid whole force now).1.table := by
  unfold handoff
  split
  · exact .refl _
  rename_i s hs
  dsimp only
  split
  · exact .refl _
  rename_i hlt
  have hpos := remaining_pos_of_lt (UInt64.not_le.mp hlt)
  split
  · exact .refl _
  -- the cut lies `k` bytes behind the watermark
  obtain ⟨k, hk, hcut⟩ : ∃ k, k < s.remaining ∧
      handoffCut s whole = s.start + s.written + k := by
    unfold handoffCut
    dsimp only
    rw [sub_pos_eq]
    split
    · exact ⟨0, hpos, by grind⟩
    · exact ⟨s.remaining / 2, half_lt hpos, rfl⟩
  have hzero : (s.start + s.written + k = s.start + s.written) ↔ k = 0 := by
    constructor
    · intro h
      grind
    · rintro rfl
      grind
  have htable : ((w.splitOff sid s (s.start + s.written + k) now).setSeg sid
      { s with
        end_ := s.start + s.written + k
        endShared := s.start + s.written + k
        lastProgress := now
        done := s.done || decide (s.start + s.written + k = s.start + s.written) }).table =
      w.table.cut sid s k now now := by
    simp only [splitOff, setSeg, Writer.table, Table.cut, Seg.keep, Seg.rest, hzero]
    rw [List.set_append_left _ _ (by rw [List.length_set]; exact getElem?_lt hs), List.set_set]
  rw [hcut, htable]
  exact .cut _ sid s k now now hs hk

@[simp] theorem table_ensureSpare : w.ensureSpare.table = w.table := by
  unfold ensureSpare
  dsimp only
  split
  · rfl
  · rfl

/-- What `if r.2 { ensure_spare }` leaves of the table. -/
theorem table_ensureSpare_ite (b : Bool) : (if b then w.ensureSpare else w).table = w.table := by
  cases b
  · rfl
  · exact table_ensureSpare w

theorem recut_handoffAll (stalled : Seg → Bool) (whole force : Bool) (now : Nat) (is : List Nat)
    (w : Writer) : Recut w.table (handoffAll stalled whole force now is w).1.table := by
  induction is generalizing w with
  | nil => exact .refl _
  | cons i is ih =>
    unfold handoffAll
    split
    · exact .trans (recut_handoff w i whole force now) (ih _)
    · exact ih w

theorem recut_reclaimStalled (now : Nat) : Recut w.table (w.reclaimStalled now).table := by
  unfold reclaimStalled
  split
  · exact .refl _
  · dsimp only
    rw [table_ensureSpare_ite]
    exact recut_handoffAll ..

theorem recut_watchdogRequeueStalled (now : Nat) :
    Recut w.table (w.watchdogRequeueStalled now).table := by
  unfold watchdogRequeueStalled
  split
  · exact .refl _
  split
  · exact .refl _
  · show Recut w.table (Writer.table (if _ then _ else _))
    rw [table_ensureSpare_ite]
    exact recut_handoffAll ..

/-! ### Shrinks -/

/-- The lower limit of a cut lies between 64 KiB and 1 GiB. -/
theorem effectiveMinSplit_bounds :
    65536 ≤ w.effectiveMinSplit.toNat ∧ w.effectiveMinSplit.toNat ≤ 1073741824 := by
  have hge := w.opts.minSplit_ge
  have hle := w.opts.minSplit_le
  unfold effectiveMinSplit
  split
  · rw [Word.toNat_min]
    have h : endgameMinSplit.toNat = 65536 := rfl
    omega
  · exact ⟨hge, hle⟩

theorem toNat_satDouble :
    (satDouble w.effectiveMinSplit).toNat = w.effectiveMinSplit.toNat * 2 := by
  have hle := (effectiveMinSplit_bounds w).2
  unfold satDouble
  rw [if_pos (by omega), UInt64.toNat_mul]
  show w.effectiveMinSplit.toNat * 2 % 18446744073709551616 = _
  omega

/-- **A shrink** is a cut, or nothing. -/
theorem recut_shrinkSeg (preferred : Nat) (reclaimBytes : UInt64) (now : Nat) :
    Recut w.table (w.shrinkSeg preferred reclaimBytes now).table := by
  unfold shrinkSeg
  split
  · exact .refl _
  rename_i sid _
  split
  · exact .refl _
  rename_i s hs
  dsimp only
  split
  · exact .refl _
  rename_i hlt
  rw [sub_pos_eq] at hlt ⊢
  have hroom := UInt64.le_iff_toNat_le.mp (UInt64.not_lt.mp hlt)
  rw [toNat_satDouble] at hroom
  have hfloor := (effectiveMinSplit_bounds w).1
  -- both parts keep at least the lower limit
  generalize hr : max w.effectiveMinSplit (min reclaimBytes (s.remaining - w.effectiveMinSplit)) =
    reclaim
  have hreclaim : 0 < reclaim.toNat ∧ reclaim.toNat < s.remaining.toNat := by
    rw [← hr, Word.toNat_max, Word.toNat_min, Word.toNat_sub (by omega)]
    omega
  have hk : (s.remaining - reclaim).toNat = s.remaining.toNat - reclaim.toNat :=
    Word.toNat_sub (by omega)
  have hcut : s.end_ - reclaim = s.start + s.written + (s.remaining - reclaim) := by
    rw [← pos_add_remaining s]
    grind
  have hne : s.remaining - reclaim ≠ 0 := by
    intro h0
    rw [h0] at hk
    have : (0 : UInt64).toNat = 0 := rfl
    omega
  rw [hcut, table_splitOff hne]
  exact .cut _ sid s _ _ now hs (UInt64.lt_iff_toNat_lt.mpr (by omega))

theorem recut_applyAdaptiveAction (action : ScheduleAction) (now : Nat) :
    Recut w.table (w.applyAdaptiveAction action now).table := by
  unfold applyAdaptiveAction
  split
  · exact .refl _
  cases action with
  | maintain => exact .refl _
  | grow => exact .refl _
  | shrink connId reclaimBytes => exact recut_shrinkSeg w connId reclaimBytes now
  | retire connId =>
    dsimp only
    rw [table_ensureSpare_ite]
    exact recut_handoff w connId false false now
  | spawn =>
    dsimp only
    split
    · exact .refl _
    · exact .refl _

/-! ### Steals -/

variable {segs : List Seg}

/-- What `largest` finds is in the list and satisfies the predicate. -/
theorem largest_spec {p : Seg → Bool} (all : List Seg) {best : Option (UInt64 × Nat)}
    (hall : ∀ j s, segs[j]? = some s → all[i + j]? = some s)
    (hbest : ∀ b, best = some b → ∃ s, all[b.2]? = some s ∧ p s) {b : UInt64 × Nat}
    (h : largest p segs i best = some b) : ∃ s, all[b.2]? = some s ∧ p s := by
  induction segs generalizing i best with
  | nil => exact hbest b h
  | cons s segs ih =>
    refine ih (fun j t hj => ?_) ?_ h
    · have := hall (j + 1) t hj
      rwa [Nat.add_assoc, Nat.add_comm 1 j]
    · intro b' hb'
      split at hb'
      · rename_i hp
        obtain rfl := Option.some.inj hb'
        exact ⟨s, hall 0 s rfl, (Bool.and_eq_true_iff.mp hp).1⟩
      · exact hbest b' hb'

theorem stealTarget_spec {w : Writer} (h : w.stealTarget = some sid) :
    ∃ s, w.segs[sid]? = some s ∧ s.done = false ∧ s.queued = false ∧
      w.effectiveMinSplit.toNat * 2 ≤ s.remaining.toNat := by
  unfold stealTarget at h
  obtain ⟨b, hb, rfl⟩ := Option.map_eq_some_iff.mp h
  obtain ⟨s, hs, hp⟩ := largest_spec w.segs (fun j s hj => by rwa [Nat.zero_add])
    (by intro b hb; cases hb) hb
  simp only [stealable, Bool.and_eq_true, Bool.not_eq_true', decide_eq_true_eq] at hp
  refine ⟨s, hs, hp.1.1, hp.1.2, ?_⟩
  rw [← toNat_satDouble]
  exact UInt64.le_iff_toNat_le.mp hp.2

/-- **A steal** cuts an unfinished segment that is not queued in the middle, and hands out the
second half. -/
theorem trySteal_spec {w w' : Writer} {now nsid : Nat} (h : w.trySteal now = some (w', nsid)) :
    ∃ sid s k, w.segs[sid]? = some s ∧ s.done = false ∧ s.queued = false ∧ k < s.remaining ∧
      nsid = w.segs.length ∧ w'.table = w.table.cut sid s k s.lastProgress now ∧
      w'.segs[nsid]? = some (s.rest k now) := by
  unfold trySteal at h
  split at h
  · cases h
  rename_i sid ht
  obtain ⟨s, hs, hdone, hqueued, hlarge⟩ := stealTarget_spec ht
  rw [hs] at h
  dsimp only at h
  rw [sub_pos_eq] at h
  have hfloor := (effectiveMinSplit_bounds w).1
  have hhalf := Word.toNat_half s.remaining
  have hne : s.remaining / 2 ≠ 0 := by
    intro h0
    rw [h0] at hhalf
    have : (0 : UInt64).toNat = 0 := rfl
    omega
  obtain ⟨rfl, rfl⟩ := Prod.mk.inj (Option.some.inj h)
  refine ⟨sid, s, s.remaining / 2, hs, hdone, hqueued, ?_, rfl, table_splitOff hne now, ?_⟩
  · exact UInt64.lt_iff_toNat_lt.mpr (by omega)
  · simp only [splitOff, Seg.rest]
    rw [List.getElem?_append_right (by simp)]
    simp

/-- There is something to steal exactly when there is a target; the queue does not matter. -/
theorem trySteal_isSome (now : Nat) :
    ({ w with queue := [] }.trySteal now).isSome = w.stealTarget.isSome := by
  have htarget : stealTarget { w with queue := [] } = w.stealTarget := rfl
  unfold trySteal
  rw [htarget]
  split
  · rename_i h
    rw [h]
    rfl
  · rename_i sid h
    obtain ⟨s, hs, -⟩ := stealTarget_spec h
    rw [h]
    dsimp only
    rw [hs]
    rfl

/-! ## Dispatch -/

/-- The segment an answer hands out. -/
def Assignment.seg? : Assignment → Option Nat
  | work sid _ _ => some sid
  | _ => none

/-- **A release** takes one worker off the segment, and queues the segment when it is
unfinished, not queued, and nobody reads it any more. -/
theorem release_cases (sid : Nat) :
    (w.segs[sid]? = none ∧ (w.release sid).table = w.table) ∨
    ∃ s, w.segs[sid]? = some s ∧
      ((s.done = false ∧ s.queued = false ∧ s.holders - 1 = 0 ∧
          (w.release sid).table = w.table.requeue sid s) ∨
        ((s.done = true ∨ ¬ s.end_ - s.start > s.written ∨ s.queued = true ∨ s.holders - 1 ≠ 0) ∧
          (w.release sid).table = w.table.giveBack sid s)) := by
  unfold release
  split
  · rename_i hs
    exact .inl ⟨hs, rfl⟩
  rename_i s hs
  refine .inr ⟨s, hs, ?_⟩
  dsimp only
  split
  · rename_i h
    simp only [Bool.and_eq_true, Bool.not_eq_true', decide_eq_true_eq] at h
    exact .inl ⟨h.1.1.1, h.1.2, h.2, rfl⟩
  · rename_i h
    simp only [Bool.and_eq_true, Bool.not_eq_true', decide_eq_true_eq, not_and] at h
    refine .inr ⟨?_, rfl⟩
    by_cases hdone : s.done = true
    · exact .inl hdone
    by_cases hlacks : s.end_ - s.start > s.written
    · by_cases hqueued : s.queued = true
      · exact .inr (.inr (.inl hqueued))
      · exact .inr (.inr (.inr (h ⟨⟨by simpa using hdone, hlacks⟩, by simpa using hqueued⟩)))
    · exact .inr (.inl hlacks)

theorem popWork_some {queue rest : List Nat} (h : popWork segs queue = some (sid, rest)) :
    ∃ dropped s, queue = dropped ++ sid :: rest ∧ segs[sid]? = some s ∧ s.done = false ∧
      ∀ i ∈ dropped, ∀ t, segs[i]? = some t → t.done = true := by
  induction queue with
  | nil => cases h
  | cons i queue ih =>
    unfold popWork at h
    -- what comes before the popped number is finished
    have skip : (∀ t, segs[i]? = some t → t.done = true) → popWork segs queue = some (sid, rest) →
        ∃ dropped s, i :: queue = dropped ++ sid :: rest ∧ segs[sid]? = some s ∧ s.done = false ∧
          ∀ i ∈ dropped, ∀ t, segs[i]? = some t → t.done = true := by
      intro hi h
      obtain ⟨dropped, s, hq, hs, hdone, hdropped⟩ := ih h
      exact ⟨i :: dropped, s, by rw [hq]; rfl, hs, hdone,
        List.forall_mem_cons.mpr ⟨hi, hdropped⟩⟩
    split at h
    · rename_i hi
      exact skip (fun t ht => by rw [hi] at ht; cases ht) h
    · rename_i s hs
      split at h
      · rename_i hdone
        exact skip (fun t ht => by rw [hs] at ht; obtain rfl := Option.some.inj ht; exact hdone) h
      · rename_i hdone
        obtain ⟨rfl, rfl⟩ := Prod.mk.inj (Option.some.inj h)
        exact ⟨[], s, rfl, hs, by simpa using hdone, by intro i hi; cases hi⟩

theorem popWork_none {queue : List Nat} (h : popWork segs queue = none) :
    ∀ i ∈ queue, ∀ t, segs[i]? = some t → t.done = true := by
  induction queue with
  | nil => intro i hi; cases hi
  | cons i queue ih =>
    unfold popWork at h
    split at h
    · rename_i hi
      refine List.forall_mem_cons.mpr ⟨fun t ht => ?_, ih h⟩
      rw [hi] at ht
      cases ht
    · rename_i s hs
      split at h
      · rename_i hdone
        refine List.forall_mem_cons.mpr ⟨fun t ht => ?_, ih h⟩
        rw [hs] at ht
        obtain rfl := Option.some.inj ht
        exact hdone
      · cases h

theorem idle_table (failures : UInt32) :
    (w.idle failures).1.table = w.table ∧ (w.idle failures).2.seg? = none := by
  unfold idle
  split
  · exact ⟨rfl, rfl⟩
  · exact ⟨rfl, rfl⟩

/-- **Dispatch** takes the first unfinished segment of the queue, or else what a steal cuts off
another one, or else nothing; in the last two cases the queue is used up. -/
theorem takeWork_cases (failures : UInt32) (now : Nat) :
    (∃ sid s rest, popWork w.segs w.queue = some (sid, rest) ∧ w.segs[sid]? = some s ∧
      (w.takeWork failures now).1.table = { w.table with queue := rest }.take sid s now ∧
      (w.takeWork failures now).2.seg? = some sid) ∨
    (popWork w.segs w.queue = none ∧ w.stealTarget.isSome = true ∧
      ∃ sid s k, w.segs[sid]? = some s ∧ s.done = false ∧ s.queued = false ∧ k < s.remaining ∧
        (w.takeWork failures now).1.table =
          ({ w.table with queue := [] }.cut sid s k s.lastProgress now).take w.segs.length
            (s.rest k now) now ∧
        (w.takeWork failures now).2.seg? = some w.segs.length) ∨
    (popWork w.segs w.queue = none ∧ w.stealTarget.isSome = false ∧
      (w.takeWork failures now).1.table = { w.table with queue := [] } ∧
      (w.takeWork failures now).2.seg? = none) := by
  unfold takeWork
  split
  · rename_i sid rest hpop
    obtain ⟨dropped, s, -, hs, -⟩ := popWork_some hpop
    refine .inl ⟨sid, s, rest, hpop, hs, ?_⟩
    dsimp only
    rw [hs]
    exact ⟨rfl, rfl⟩
  · rename_i hpop
    right
    unfold stealOrIdle
    split
    · rename_i hsteal
      refine .inr ⟨hpop, ?_, idle_table _ failures⟩
      rw [← Bool.not_eq_true, ← trySteal_isSome w now]
      exact Option.not_isSome_iff_eq_none.mpr hsteal
    · rename_i w' nsid hsteal
      refine .inl ⟨hpop, ?_, ?_⟩
      · rw [← trySteal_isSome w now]
        exact Option.isSome_iff_exists.mpr ⟨_, hsteal⟩
      · obtain ⟨sid, s, k, hs, hdone, hqueued, hk, rfl, htable, hnew⟩ := trySteal_spec hsteal
        refine ⟨sid, s, k, hs, hdone, hqueued, hk, ?_⟩
        rw [hnew]
        refine ⟨?_, rfl⟩
        show Table.take w'.table _ _ _ = _
        rw [htable]
        rfl

/-! ## Moves that leave the extents alone -/

/-- A segment without anything that says who reads it and when. -/
def Seg.extent (s : Seg) : Seg :=
  { s with done := false, queued := false, holders := 0, lastProgress := 0, endShared := 0 }

/-- The two tables differ only in who reads which segment. -/
structure SameExtents (b b' : Table) : Prop where
  total : b'.total = b.total
  base : b'.base = b.base
  todo : b'.todo = b.todo
  completed : b'.completed = b.completed
  segs : b'.segs.map Seg.extent = b.segs.map Seg.extent

theorem map_extent_set {s s' : Seg} (hs : segs[i]? = some s) (h : s'.extent = s.extent) :
    (segs.set i s').map Seg.extent = segs.map Seg.extent := by
  rw [List.map_set, h]
  refine List.ext_getElem? fun j => ?_
  by_cases hj : i = j
  · subst hj
    rw [List.getElem?_set_self (by rw [List.length_map]; exact getElem?_lt hs), List.getElem?_map,
      hs]
    rfl
  · rw [List.getElem?_set_ne hj]

theorem sameExtents_take {s : Seg} (q : List Nat) (now : Nat) (hs : b.segs[sid]? = some s) :
    SameExtents b ({ b with queue := q }.take sid s now) :=
  ⟨rfl, rfl, rfl, rfl, map_extent_set hs rfl⟩

theorem sameExtents_release (sid : Nat) : SameExtents w.table (w.release sid).table := by
  rcases release_cases w sid with ⟨-, h⟩ | ⟨s, hs, ⟨-, -, -, h⟩ | ⟨-, h⟩⟩
  · rw [h]
    exact ⟨rfl, rfl, rfl, rfl, rfl⟩
  · rw [h]
    exact ⟨rfl, rfl, rfl, rfl, map_extent_set hs rfl⟩
  · rw [h]
    exact ⟨rfl, rfl, rfl, rfl, map_extent_set hs rfl⟩

end XferRust.Split
