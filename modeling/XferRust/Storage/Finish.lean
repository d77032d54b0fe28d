import XferRust.Storage.Completion
import XferRust.Storage.Durable

/-! # The end of a download

The run of a torrent's engine, as far as the store and the resume control file go.  When all wanted
pieces are done the engine flushes the store, removes the control file and reports success; but it
does not look at what the flush came to.  A piece is done as soon as it is in the write-back cache,
so success may be reported, and the control file removed, of pieces that are nowhere on the disk.

The sessions of the peers go on all the while, and the control file is written by other threads:
every step of the run may come between any two of theirs.
-/
namespace XferRust.Storage

/-- A durable bitfield, and its number among those that were taken in the run. -/
structure Snapshot where
  number : Nat
  bitfield : List UInt8

/-- How far the engine's `run` is. -/
inductive Phase
  /-- Before the loop. -/
  | verifying
  | downloading
  /-- `is_done` has found all wanted pieces done. -/
  | complete
  /-- In `finish`, after the flush. -/
  | flushed
  | seeding
  /-- Cancelled, after the flush. -/
  | stopping
  | returned (ok : Bool)
deriving DecidableEq

structure Download (F : Type) where
  seeder : Seeder F
  wanted : Option PieceMap
  phase : Phase
  /-- The pieces that are stored, and for which `save_resume` is yet to be called. -/
  due : Nat
  /-- What the background is to write into the control file. -/
  pending : List Snapshot
  /-- What the run itself is to write there. -/
  forcing : Option Snapshot
  ctrl : Option Snapshot
  snapshots : Nat
  /-- The number of the last snapshot that the run itself has written. -/
  forced : Option Nat
  /-- What the flush of `finish` came to, which the source drops. -/
  flush : Option (Except IoError Unit)
  /-- `finish` has removed the control file. -/
  removed : Bool

inductive DownloadEvent
  /-- A call of the store, by a session or by the run. -/
  | call (c : EngineCall) (os : List Outcome)
  /-- `apply_selection`, with the mask that it comes to. -/
  | select (wanted : Option PieceMap)
  /-- `save_resume(false)`, after a piece. -/
  | save (throttled : Bool)
  /-- A save of the background runs, with the outcome of its write. -/
  | written (j : Nat) (ok : Bool)
  /-- `save_resume(true)` takes the bitfield. -/
  | snapshot
  /-- It writes the file. -/
  | force (ok : Bool)
  | begin
  /-- `is_done`. -/
  | isDone
  /-- The flush of `finish`. -/
  | flush (os : List Outcome)
  /-- `finish` removes the control file. -/
  | remove (ok : Bool)
  /-- The share ratio or the time of seeding is reached. -/
  | seedEnd
  | cancel (os : List Outcome)

namespace Download
variable {F : Type}

/-- A run that starts, over a control file that may be there. -/
def start (s : PieceStore F) (content : F → List UInt8) (wanted : Option PieceMap)
    (ctrl : Option (List UInt8)) : Download F where
  seeder := .start s content
  wanted := wanted
  phase := .verifying
  due := 0
  pending := []
  forcing := none
  ctrl := ctrl.map fun bitfield => { number := 0, bitfield }
  snapshots := 0
  forced := none
  flush := none
  removed := false

/-- The next snapshot. -/
def snapshot (d : Download F) : Snapshot where
  number := d.snapshots + 1
  bitfield := d.seeder.store.durableBitfield

/-- `all_wanted_done`. -/
def isDone (d : Download F) : Bool := allWantedDone d.wanted d.seeder.store.map

/-- `flush_all`, with the outcomes of the disk. -/
def flushAll [DecidableEq F] (d : Download F) (os : List Outcome) :
    Option (PieceStore F × Except IoError Unit) :=
  PieceStore.flushAll { d.seeder.store with disk := { d.seeder.store.disk with outcomes := os } }

section
variable [DecidableEq F] {Hash : Type} [DecidableEq Hash] (sha1 : List UInt8 → Hash)
  (hashes : UInt32 → Hash) (seedMode : Bool)

def step (d : Download F) : DownloadEvent → Option (Download F)
  | .call c os =>
    (d.seeder.step sha1 hashes (c, os)).map fun seeder =>
      { d with
        seeder
        -- each piece that was stored calls for a save
        due := d.due + (seeder.accepted.length - d.seeder.accepted.length) }
  | .select wanted =>
    match d.phase with
    | .returned _ => none
    | _ => some { d with wanted }
  | .save throttled =>
    if d.due = 0 then none
    else if throttled then some { d with due := d.due - 1 }
    else
      some
        { d with
          due := d.due - 1
          pending := d.pending ++ [d.snapshot]
          snapshots := d.snapshots + 1 }
  | .written j ok =>
    d.pending[j]?.map fun p =>
      { d with
        pending := d.pending.eraseIdx j
        ctrl := if ok then some p else d.ctrl }
  | .snapshot =>
    if d.forcing = none ∧ (d.phase = .verifying ∨ d.phase = .stopping) then
      some { d with forcing := some d.snapshot, snapshots := d.snapshots + 1 }
    else none
  | .force ok =>
    d.forcing.map fun p =>
      { d with
        forcing := none
        ctrl := if ok then some p else d.ctrl
        forced := if ok then some p.number else d.forced
        phase := if d.phase = .stopping then .returned false else d.phase }
  | .begin =>
    if d.phase = .verifying ∧ d.forcing = none then some { d with phase := .downloading } else none
  | .isDone =>
    if d.phase = .downloading ∧ d.isDone then some { d with phase := .complete } else none
  | .flush os =>
    if d.phase = .complete then
      (d.flushAll os).map fun r =>
        { d with seeder.store := r.1, phase := .flushed, flush := some r.2 }
    else none
  | .remove ok =>
    if d.phase = .flushed then
      some
        { d with
          ctrl := if ok then none else d.ctrl
          removed := d.removed || ok
          phase := if seedMode then .seeding else .returned true }
    else none
  | .seedEnd => if d.phase = .seeding then some { d with phase := .returned true } else none
  | .cancel os =>
    if d.phase = .downloading then
      (d.flushAll os).map fun r => { d with seeder.store := r.1, phase := .stopping }
    else if d.phase = .seeding then some { d with phase := .returned false }
    else none

end

/-! ## Success -/

/-- The selection needs piece `i`. -/
def Wants (d : Download F) (i : UInt32) : Prop :=
  match d.wanted with
  | none => i < d.seeder.store.map.count
  | some m => m.isSet i = true

/-- All wanted pieces are done, and those that were stored have left the cache for the files. -/
structure Written (d : Download F) : Prop where
  done : ∀ i, d.Wants i → d.seeder.store.map.isSet i = true
  uncached : ∀ i, d.Wants i → ∀ c ∈ d.seeder.store.writeCache, c.index ≠ i
  onFile : ∀ i, d.Wants i → ∀ data, (i, data) ∈ d.seeder.accepted →
    d.seeder.store.OnFile i data

/-- Success is reported, and the control file removed, of written pieces only, and neither after a
flush that failed. -/
structure Honest (d : Download F) : Prop where
  success : d.phase = .returned true → d.Written
  removal : d.removed = true → d.Written
  failure : ∀ e, d.flush = some (.error e) → d.phase ≠ .returned true ∧ d.removed = false

/-- The condition on a step: no operation of the disk fails in the flush of `finish`, and what is
selected when the engine has found the download complete is done already, and out of the cache once
the flush is over. -/
def Reliable (d : Download F) : DownloadEvent → Prop
  | .flush os => PieceStore.NoFailure d.seeder.store.flushWrites os
  | .select wanted =>
    (d.phase = .complete → ∀ i, Wants { d with wanted } i → d.seeder.store.map.isSet i = true) ∧
    (d.flush ≠ none → ∀ i, Wants { d with wanted } i → d.seeder.store.map.isSet i = true ∧
      ∀ c ∈ d.seeder.store.writeCache, c.index ≠ i)
  | _ => True

/-- The calls of the store in a run. -/
def calls (es : List DownloadEvent) : List (EngineCall × List Outcome) :=
  es.filterMap fun
    | .call c os => some (c, os)
    | _ => none

end Download

/-! ## What is done stays done -/

theorem PieceMap.Clean.setFromBitfield {m : PieceMap} (h : m.Clean) (bf : List UInt8) :
    (m.setFromBitfield bf).Clean := by
  unfold PieceMap.setFromBitfield
  induction List.range (8 * bf.length) generalizing m with
  | nil => exact h
  | cons idx rest ih =>
    rw [List.foldl_cons]
    refine ih ?_
    split
    · exact h.set _
    · exact h

/-- From the store `s` to `s'` bits are only set, and what comes into the cache is not done. -/
structure Grows {F : Type} (s s' : PieceStore F) : Prop where
  bits : ∀ i, s.map.isSet i = true → s'.map.isSet i = true
  clean : s.map.Clean → s'.map.Clean
  entries : ∀ c ∈ s'.writeCache, c ∈ s.writeCache ∨ s.map.isSet c.index = false

section
variable {F : Type} [DecidableEq F] {Hash : Type} [DecidableEq Hash] {sha1 : List UInt8 → Hash}
  {hashes : UInt32 → Hash}

namespace PieceStore

variable {s s' : PieceStore F} {r : Except IoError Unit}

theorem grows_of_drain {more : Nat → Bool} {cache : List CachedPiece}
    (h : drain more cache s = some (s', r)) : Grows { s with writeCache := cache } s' := by
  have hd := drain_spec h
  obtain ⟨gone, hgone⟩ := hd.suffix
  refine ⟨fun i hi => hd.map ▸ hi, fun hc => hd.map ▸ hc, fun c hc => .inl ?_⟩
  exact hgone ▸ List.mem_append_right _ hc

theorem grows_of_flushAll (h : s.flushAll = some (s', r)) : Grows s s' := by
  obtain ⟨⟨u, r₁⟩, hflush, h⟩ := Option.bind_eq_some_iff.mp h
  have hgrows := grows_of_drain hflush
  cases r₁ with
  | error e =>
    obtain ⟨rfl, -⟩ := Prod.mk.inj (Option.some.inj h)
    exact ⟨hgrows.bits, hgrows.clean, hgrows.entries⟩
  | ok _ =>
    obtain ⟨rfl, -⟩ := Prod.mk.inj (Option.some.inj h)
    exact ⟨hgrows.bits, hgrows.clean, hgrows.entries⟩

/-- A piece that is written was not done, and comes into the cache alone. -/
theorem grows_of_writePiece {index : UInt32} {data : List UInt8} (hs : s.Sited) (ht : s.Tidy)
    (hlen : data.length = s.layout.pieceSize index) (hnew : s.map.isSet index = false)
    (h : s.writePiece index data = some (s', r)) : Grows s s' := by
  obtain ⟨disk, rfl, -⟩ | ⟨cache, bytes, more, hmem, hdrain⟩ := writePiece_cases hs ht hlen h
  · exact ⟨fun _ hi => hi, id, fun c hc => .inl hc⟩
  · have hd := grows_of_drain hdrain
    refine ⟨hd.bits, hd.clean, fun c hc => ?_⟩
    rcases hd.entries c hc with hc | hc
    · rcases List.mem_append.mp hc with hc | hc
      · exact .inl ((hmem c).mp hc).1
      · obtain rfl := List.mem_singleton.mp hc
        exact .inr hnew
    · exact .inr hc

end PieceStore

theorem Seeder.step_grows {t t' : Seeder F} {c : EngineCall} {os : List Outcome}
    (hs : t.store.Sited) (ht : t.store.Tidy) (h : t.step sha1 hashes (c, os) = some t') :
    Grows t.store t'.store := by
  cases c with
  | accept index data =>
    dsimp only [Seeder.step] at h
    split at h
    · cases h
    · rename_i hlen
      obtain ⟨n, hn, hlen⟩ := Option.map_eq_some_iff.mp (Decidable.not_not.mp hlen)
      rw [PieceLayout.pieceLen_eq_some hn] at hlen
      obtain ⟨⟨u, ok⟩, hcall, rfl⟩ := Option.map_eq_some_iff.mp h
      unfold PieceStore.acceptPiece at hcall
      split at hcall
      · obtain ⟨rfl, -⟩ := Prod.mk.inj (Option.some.inj hcall)
        exact ⟨fun _ hi => hi, id, fun c hc => .inl hc⟩
      · rename_i hnew
        have hnew := Bool.eq_false_iff.mpr hnew
        split at hcall
        · obtain ⟨rfl, -⟩ := Prod.mk.inj (Option.some.inj hcall)
          exact ⟨fun _ hi => hi, id, fun c hc => .inl hc⟩
        · split at hcall
          · cases hcall
          · rename_i u hwrite
            have hgrows := PieceStore.grows_of_writePiece
              (s := { t.store with disk := { t.store.disk with outcomes := os } })
              ⟨hs.placed, hs.size, hs.handles⟩ ⟨ht.bytes, ht.unique⟩ hlen.symm hnew hwrite
            obtain ⟨rfl, -⟩ := Prod.mk.inj (Option.some.inj hcall)
            exact ⟨fun i hi => PieceMap.isSet_set (hgrows.bits i hi),
              fun hc => (hgrows.clean hc).set _, hgrows.entries⟩
          · rename_i u e hwrite
            have hgrows := PieceStore.grows_of_writePiece
              (s := { t.store with disk := { t.store.disk with outcomes := os } })
              ⟨hs.placed, hs.size, hs.handles⟩ ⟨ht.bytes, ht.unique⟩ hlen.symm hnew hwrite
            obtain ⟨rfl, -⟩ := Prod.mk.inj (Option.some.inj hcall)
            exact ⟨hgrows.bits, hgrows.clean, hgrows.entries⟩
  | setLimit bytes =>
    obtain ⟨⟨u, r⟩, hcall, rfl⟩ := Option.map_eq_some_iff.mp h
    have hgrows := PieceStore.grows_of_drain hcall
    exact ⟨hgrows.bits, hgrows.clean, hgrows.entries⟩
  | flushAll =>
    obtain ⟨⟨u, r⟩, hcall, rfl⟩ := Option.map_eq_some_iff.mp h
    have hgrows := PieceStore.grows_of_flushAll hcall
    exact ⟨hgrows.bits, hgrows.clean, hgrows.entries⟩
  | setBitfield bf =>
    obtain rfl := Option.some.inj h
    show Grows t.store (PieceStore.setBitfield _ bf)
    unfold PieceStore.setBitfield
    split
    · exact ⟨fun i hi => PieceMap.isSet_setFromBitfield bf hi, fun hc => hc.setFromBitfield bf,
        fun c hc => .inl hc⟩
    · exact ⟨fun _ hi => hi, id, fun c hc => .inl hc⟩

namespace Download

theorem step_of_flushAll {d : Download F} {os : List Outcome}
    {r : PieceStore F × Except IoError Unit} (h : d.flushAll os = some r) :
    d.seeder.step sha1 hashes (.flushAll, os) = some { d.seeder with store := r.1 } :=
  Option.map_eq_some_iff.mpr ⟨r, h, rfl⟩

/-- What holds in every state of a run whose steps are reliable. -/
structure Sound (T : UInt32 → List UInt8) (s₀ : PieceStore F) (d : Download F) : Prop where
  faithful : Seeder.Faithful T s₀ d.seeder
  clean : d.seeder.store.map.Clean
  complete : d.phase = .complete → ∀ i, d.Wants i → d.seeder.store.map.isSet i = true
  settled : d.flush ≠ none → ∀ i, d.Wants i → d.seeder.store.map.isSet i = true ∧
    ∀ c ∈ d.seeder.store.writeCache, c.index ≠ i
  flushed : ∀ e, d.flush ≠ some (.error e)
  finished : d.phase = .flushed ∨ d.phase = .seeding ∨ d.phase = .returned true ∨
    d.removed = true → d.flush ≠ none

variable {T : UInt32 → List UInt8} {s₀ : PieceStore F} {d : Download F}

omit [DecidableEq F] in
/-- A call of the store. -/
theorem Sound.grow (h : d.Sound T s₀) {t : Seeder F} (hf : Seeder.Faithful T s₀ t)
    (hg : Grows d.seeder.store t.store) : Sound T s₀ { d with seeder := t } := by
  have hcount : t.store.map.count = d.seeder.store.map.count :=
    hf.shape.count.trans h.faithful.shape.count.symm
  have hwants {i : UInt32} (hi : Wants { d with seeder := t } i) : d.Wants i := by
    unfold Wants at hi ⊢
    cases hw : d.wanted with
    | none =>
      rw [show ({ d with seeder := t } : Download F).wanted = none from hw] at hi
      exact hcount ▸ hi
    | some m =>
      rw [show ({ d with seeder := t } : Download F).wanted = some m from hw] at hi
      exact hi
  refine ⟨hf, hg.clean h.clean, fun hp i hi => hg.bits i (h.complete hp i (hwants hi)),
    fun hfl i hi => ?_, h.flushed, h.finished⟩
  obtain ⟨hset, hno⟩ := h.settled hfl i (hwants hi)
  refine ⟨hg.bits i hset, fun c hc heq => ?_⟩
  rcases hg.entries c hc with hc | hc
  · exact hno c hc heq
  · rw [heq, hset] at hc
    cases hc

omit [DecidableEq F] in
/-- All wanted pieces are done when `is_done` says so. -/
theorem Sound.of_isDone (h : d.Sound T s₀) (hdone : d.isDone = true) {i : UInt32}
    (hi : d.Wants i) : d.seeder.store.map.isSet i = true := by
  unfold isDone at hdone
  unfold Wants at hi
  cases hw : d.wanted with
  | none =>
    rw [hw] at hdone hi
    exact h.clean.allDone_iff.mp hdone i hi
  | some m =>
    rw [hw] at hdone hi
    rw [allWantedDone] at hdone
    split at hdone
    · cases hdone
    · have := List.all_eq_true.mp hdone i (mem_indices.mpr (PieceMap.lt_count hi))
      rwa [show m.isSet i = true from hi, Bool.not_true, Bool.false_or] at this

theorem step_sound {seedMode : Bool} (hs₀ : s₀.Sited) {d' : Download F} {e : DownloadEvent}
    (h : d.Sound T s₀) (hok : d.Reliable e)
    (hT : ∀ c os, e = .call c os → Seeder.Verified sha1 hashes T (c, os))
    (hstep : d.step sha1 hashes seedMode e = some d') : d'.Sound T s₀ := by
  have hs := hs₀.of_same h.faithful.shape.layout h.faithful.shape.files
  have hflush {os : List Outcome} {r : PieceStore F × Except IoError Unit}
      (hr : d.flushAll os = some r) : Sound T s₀ { d with seeder.store := r.1 } := by
    have hcall := @step_of_flushAll F _ Hash _ sha1 hashes d os r hr
    exact h.grow (Seeder.step_faithful hs₀ h.faithful (fun _ _ heq => by cases heq) hcall)
      (Seeder.step_grows hs h.faithful.tidy hcall)
  cases e with
  | call c os =>
    obtain ⟨t, ht, rfl⟩ := Option.map_eq_some_iff.mp hstep
    have := h.grow (Seeder.step_faithful hs₀ h.faithful (hT c os rfl) ht)
      (Seeder.step_grows hs h.faithful.tidy ht)
    exact ⟨this.faithful, this.clean, this.complete, this.settled, this.flushed, this.finished⟩
  | select wanted =>
    obtain ⟨hcomplete, hsettled⟩ := hok
    rw [step] at hstep
    split at hstep
    · cases hstep
    · obtain rfl := Option.some.inj hstep
      exact ⟨h.faithful, h.clean, hcomplete, hsettled, h.flushed, h.finished⟩
  | save throttled =>
    rw [step] at hstep
    split at hstep
    · cases hstep
    · split at hstep
      · obtain rfl := Option.some.inj hstep
        exact ⟨h.faithful, h.clean, h.complete, h.settled, h.flushed, h.finished⟩
      · obtain rfl := Option.some.inj hstep
        exact ⟨h.faithful, h.clean, h.complete, h.settled, h.flushed, h.finished⟩
  | written j ok =>
    obtain ⟨p, -, rfl⟩ := Option.map_eq_some_iff.mp hstep
    exact ⟨h.faithful, h.clean, h.complete, h.settled, h.flushed, h.finished⟩
  | snapshot =>
    obtain ⟨-, hstep⟩ := Option.ite_none_right_eq_some.mp hstep
    obtain rfl := Option.some.inj hstep
    exact ⟨h.faithful, h.clean, h.complete, h.settled, h.flushed, h.finished⟩
  | force ok =>
    obtain ⟨p, -, rfl⟩ := Option.map_eq_some_iff.mp hstep
    by_cases hp : d.phase = .stopping
    · have hphase : (if d.phase = .stopping then Phase.returned false else d.phase) =
          .returned false := if_pos hp
      rw [hphase]
      refine ⟨h.faithful, h.clean, nofun, h.settled, h.flushed, ?_⟩
      rintro (hp | hp | hp | hp)
      · cases hp
      · cases hp
      · cases hp
      · exact h.finished (.inr (.inr (.inr hp)))
    · have hphase : (if d.phase = .stopping then Phase.returned false else d.phase) =
          d.phase := if_neg hp
      rw [hphase]
      exact ⟨h.faithful, h.clean, h.complete, h.settled, h.flushed, h.finished⟩
  | begin =>
    obtain ⟨-, hstep⟩ := Option.ite_none_right_eq_some.mp hstep
    obtain rfl := Option.some.inj hstep
    refine ⟨h.faithful, h.clean, nofun, h.settled, h.flushed, ?_⟩
    rintro (hp | hp | hp | hp)
    · cases hp
    · cases hp
    · cases hp
    · exact h.finished (.inr (.inr (.inr hp)))
  | isDone =>
    obtain ⟨⟨-, hdone⟩, hstep⟩ := Option.ite_none_right_eq_some.mp hstep
    obtain rfl := Option.some.inj hstep
    refine ⟨h.faithful, h.clean, fun _ i hi => h.of_isDone hdone hi, h.settled, h.flushed, ?_⟩
    rintro (hp | hp | hp | hp)
    · cases hp
    · cases hp
    · cases hp
    · exact h.finished (.inr (.inr (.inr hp)))
  | flush os =>
    obtain ⟨hp, hstep⟩ := Option.ite_none_right_eq_some.mp hstep
    obtain ⟨r, hr, rfl⟩ := Option.map_eq_some_iff.mp hstep
    have hsound := hflush hr
    have hgood : r.2 = .ok () := PieceStore.flushAll_outcomes hr hok
    have hempty : r.1.writeCache = [] :=
      (PieceStore.flushAll_spec (s := { d.seeder.store with
        disk := { d.seeder.store.disk with outcomes := os } })
        ⟨h.faithful.tidy.bytes, h.faithful.tidy.unique⟩ hr).2.2 hgood
    refine ⟨hsound.faithful, hsound.clean, nofun,
      fun _ i hi => ⟨hsound.complete hp i hi, fun c hc => ?_⟩, fun e he => ?_, nofun⟩
    · change c ∈ r.1.writeCache at hc
      rw [hempty] at hc
      cases hc
    · have he := Option.some.inj he
      rw [hgood] at he
      cases he
  | remove ok =>
    obtain ⟨hp, hstep⟩ := Option.ite_none_right_eq_some.mp hstep
    obtain rfl := Option.some.inj hstep
    have hflush := h.finished (.inl hp)
    refine ⟨h.faithful, h.clean, fun hp => ?_, h.settled, h.flushed, fun _ => hflush⟩
    cases seedMode <;> cases hp
  | seedEnd =>
    obtain ⟨hp, hstep⟩ := Option.ite_none_right_eq_some.mp hstep
    obtain rfl := Option.some.inj hstep
    exact ⟨h.faithful, h.clean, nofun, h.settled, h.flushed,
      fun _ => h.finished (.inr (.inl hp))⟩
  | cancel os =>
    rw [step] at hstep
    split at hstep
    · obtain ⟨r, hr, rfl⟩ := Option.map_eq_some_iff.mp hstep
      have hsound := hflush hr
      refine ⟨hsound.faithful, hsound.clean, nofun, hsound.settled, h.flushed, ?_⟩
      rintro (hp | hp | hp | hp)
      · cases hp
      · cases hp
      · cases hp
      · exact h.finished (.inr (.inr (.inr hp)))
    · obtain ⟨hp, hstep⟩ := Option.ite_none_right_eq_some.mp hstep
      obtain rfl := Option.some.inj hstep
      exact ⟨h.faithful, h.clean, nofun, h.settled, h.flushed,
        fun _ => h.finished (.inr (.inl hp))⟩

omit [DecidableEq F] in
theorem Sound.honest (h : d.Sound T s₀) : d.Honest := by
  have hwritten (hf : d.flush ≠ none) : d.Written := by
    have hall := h.settled hf
    refine ⟨fun i hi => (hall i hi).1, fun i hi => (hall i hi).2, fun i hi data hdata => ?_⟩
    exact (h.faithful.kept.onFile (i, data) hdata (hall i hi).2).2
  exact ⟨fun hp => hwritten (h.finished (.inr (.inr (.inl hp)))),
    fun hr => hwritten (h.finished (.inr (.inr (.inr hr)))),
    fun e he => absurd he (h.flushed e)⟩

/-- **Success is honest** in every run in which no operation of the disk fails in the flush of
`finish`, and nothing that is missing is selected once the download is complete. -/
theorem honest_of_run {resolve : List String → F} {name : String} {pieceLength : UInt64}
    {files : List (List String × UInt64)} {layout : PieceLayout}
    (hnew : PieceLayout.new pieceLength files = some layout) {multiFile : Bool}
    {opened : Option (List Nat)} {disk : Disk F} {s₀ : PieceStore F}
    (hopen : PieceStore.openAt resolve name (layout.withMultiFile multiFile) opened disk = some s₀)
    {content : F → List UInt8} {wanted : Option PieceMap} {ctrl : Option (List UInt8)}
    {seedMode : Bool} {es : List DownloadEvent} (hno : NoCollision sha1 hashes (calls es))
    (hok : StepRun.Along (step sha1 hashes seedMode) Reliable (.start s₀ content wanted ctrl) es) :
    StepRun.Everywhere (step sha1 hashes seedMode) Honest (.start s₀ content wanted ctrl) es := by
  have ho := PieceStore.openAt_opened hnew hopen
  obtain ⟨T, hT⟩ := Seeder.exists_verified hno
  have hclean : s₀.map.Clean := by
    obtain ⟨count, -, hopen⟩ := Option.bind_eq_some_iff.mp hopen
    obtain rfl := Option.some.inj hopen
    exact PieceMap.clean_new count
  have hnone : ∀ e ∈ ([] : List (EngineCall × List Outcome)), Seeder.Verified sha1 hashes T e :=
    fun _ h => by cases h
  have hstart : Sound T s₀ (.start s₀ content wanted ctrl) :=
    ⟨Seeder.run_faithful ho hnone rfl, hclean, nofun, fun h => absurd rfl h, nofun, by
      rintro (h | h | h | h) <;> cases h⟩
  have hverified : StepRun.Along (step sha1 hashes seedMode)
      (fun _ e => ∀ c os, e = .call c os → Seeder.Verified sha1 hashes T (c, os))
      (.start s₀ content wanted ctrl) es :=
    StepRun.along_of_forall fun e he c os heq =>
      hT (c, os) (List.mem_filterMap.mpr ⟨e, he, by rw [heq]⟩)
  exact StepRun.everywhere_of_along (fun _ => Sound.honest)
    (fun _ _ _ hs hP hstep => step_sound ho.sited hs hP.1 hP.2 hstep) hstart (hok.and hverified)

end Download

end

namespace Download

/-! ## One piece -/

/-- A piece is cached, and then the download is complete; `os` are the outcomes of its flush. -/
def onePiece (os : List Outcome) : List DownloadEvent :=
  [.begin, .call (.setLimit 8) [], .call (.accept 0 [1, 2, 3, 4]) [], .isDone, .flush os,
    .remove true]

/-- The run over the store of one piece, with a control file from before. -/
def onePieceRun (os : List Outcome) : Option (Download Unit) :=
  StepRun.run (step id (fun _ => [1, 2, 3, 4]) false)
    (.start PieceStore.emptyStore (fun _ => []) none (some [0])) (onePiece os)

theorem onePiece_honest :
    (onePieceRun []).map (fun d => (d.phase, d.removed, d.seeder.store.disk.content ())) =
        some (.returned true, true, [1, 2, 3, 4]) ∧
      StepRun.Everywhere (step id (fun _ => [1, 2, 3, 4]) false) Honest
        (.start PieceStore.emptyStore (fun _ => []) none (some [0])) (onePiece []) := by
  have hnew : PieceLayout.new 4 [(["a"], 4)] = some PieceStore.fourBytes := rfl
  have hopen : PieceStore.openAt (fun _ => ()) "a" (PieceStore.fourBytes.withMultiFile false) none
      PieceStore.emptyStore.disk = some PieceStore.emptyStore := rfl
  have hno : NoCollision id (fun _ => [1, 2, 3, 4]) (calls (onePiece [])) :=
    fun _ _ _ _ _ _ _ h h' => h.trans h'.symm
  have hok : ∀ e ∈ onePiece [], ∀ d : Download Unit, d.Reliable e := by
    simp only [onePiece, List.forall_mem_cons]
    exact ⟨fun _ => trivial, fun _ => trivial, fun _ => trivial, fun _ => trivial,
      fun _ _ _ _ h => (by cases h), fun _ => trivial, fun _ h => (by cases h)⟩
  exact ⟨rfl, honest_of_run hnew hopen hno
    ((StepRun.along_of_forall hok).mono fun d _ h => h d)⟩

/-- Where the first write of the flush fails, success is reported of a piece that is only in the
cache, and the control file is gone. -/
theorem onePiece_lost :
    (onePieceRun [.fail 0]).map (fun d => (d.phase, d.removed, d.flush, d.ctrl,
        d.seeder.store.writeCache.map CachedPiece.index, d.seeder.store.disk.content ())) =
      some (.returned true, true, some (.error .disk), none, [0], []) ∧
    ¬ StepRun.Everywhere (step id (fun _ => [1, 2, 3, 4]) false) Honest
      (.start PieceStore.emptyStore (fun _ => []) none (some [0])) (onePiece [.fail 0]) := by
  refine ⟨rfl, fun h => ?_⟩
  obtain ⟨d, hrun, hphase, hflush⟩ : ∃ d, onePieceRun [.fail 0] = some d ∧
      d.phase = .returned true ∧ d.flush = some (.error .disk) := ⟨_, rfl, rfl, rfl⟩
  exact ((h 6 d hrun).failure _ hflush).1 hphase

end Download

end XferRust.Storage
