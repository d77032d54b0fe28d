import XferRust.Lib.StepRun
import XferRust.Storage.Cache
import XferRust.Storage.Segments

/-! # The durable bitfield

`durable_bitfield` is what the resume file is written from: a piece whose bytes are only in the
cache must not have its bit.  Under every sequence of calls and every pattern of failing writes
that holds, unless a write fails while `set_write_cache_limit(0)` empties the cache: the limit is
zero by then, and the bitfield no longer looks at the entries that are left.
-/
namespace XferRust.Storage
open Tiling (total)

/-! ## Bits -/

theorem hasBit_modify {bits : List UInt8} {i j : UInt32} {mask : UInt8}
    (h : hasBit (bits.modify (j / 8).toNat fun byte => byte &&& mask) i = true) :
    hasBit bits i = true := by
  unfold hasBit at h ⊢
  rw [List.getElem?_modify] at h
  cases hbyte : bits[(i / 8).toNat]? with
  | none =>
    rw [hbyte] at h
    exact h
  | some byte =>
    simp only [hbyte, Option.map_eq_map, Option.map_some] at h ⊢
    split at h
    · rw [bne_iff_ne] at h ⊢
      intro hzero
      apply h
      rw [UInt8.and_assoc, UInt8.and_comm mask, ← UInt8.and_assoc, hzero, UInt8.zero_and]
    · exact h

namespace PieceMap

variable {m : PieceMap} {i : UInt32}

/-- Clearing a bit sets none. -/
theorem hasBit_of_unset {j : UInt32} (h : hasBit (m.unset j).bits i = true) :
    hasBit m.bits i = true := by
  unfold unset at h
  split at h
  · exact hasBit_modify h
  · exact h

theorem hasBit_unset_self (hi : i < m.count) : hasBit (m.unset i).bits i = false := by
  unfold unset
  rw [if_pos hi]
  show hasBit (m.bits.modify _ _) i = false
  unfold hasBit
  rw [List.getElem?_modify]
  cases m.bits[(i / 8).toNat]? with
  | none => rfl
  | some byte =>
    simp only [Option.map_eq_map, Option.map_some, if_true]
    rw [UInt8.and_assoc, UInt8.not_and_self, UInt8.and_zero]
    rfl

theorem unset_count (m : PieceMap) (i : UInt32) : (m.unset i).count = m.count := by
  unfold unset
  split
  · rfl
  · rfl

/-- After clearing the bits of some pieces, the bit of none of them is left. -/
theorem hasBit_foldl_unset {cache : List CachedPiece} (hi : i < m.count)
    (h : hasBit (cache.foldl (fun m c => m.unset c.index) m).bits i = true) :
    hasBit m.bits i = true ∧ ∀ c ∈ cache, c.index ≠ i := by
  induction cache generalizing m with
  | nil => exact ⟨h, nofun⟩
  | cons e cache ih =>
    obtain ⟨hunset, hrest⟩ := ih (by rwa [m.unset_count]) h
    refine ⟨hasBit_of_unset hunset, fun c hc => ?_⟩
    cases List.mem_cons.mp hc with
    | inl heq =>
      rintro rfl
      subst heq
      rw [hasBit_unset_self hi] at hunset
      cases hunset
    | inr hc => exact hrest c hc

end PieceMap

variable {F : Type}

namespace PieceStore

/-! ## What is on the disk -/

/-- The content of a piece is in the cache and not on the disk. -/
def OnlyCached (s : PieceStore F) (index : UInt32) : Prop :=
  ∃ c ∈ s.writeCache, c.index = index ∧ ¬ s.OnDisk c

/-- No piece that is only cached has a bit in the durable bitfield. -/
def Durable (s : PieceStore F) : Prop :=
  ∀ index, index < s.map.count → hasBit s.durableBitfield index = true → ¬ s.OnlyCached index

variable {s : PieceStore F}

/-- An empty entry has no byte to be missing. -/
theorem onDisk_of_data_nil {c : CachedPiece} (h : c.data = []) : s.OnDisk c := by
  intro file p rel b _ hb
  rw [h] at hb
  cases hb

/-- What the sound bitfield rests on: with the cache off, the entries have no bytes. -/
structure OffIsEmpty (s : PieceStore F) : Prop where
  tidy : s.Tidy
  off : s.cacheLimit = 0 → s.writeCacheBytes = 0

theorem OffIsEmpty.durable (h : s.OffIsEmpty) : s.Durable := by
  rintro index hindex hbit ⟨c, hc, rfl, hdisk⟩
  by_cases hoff : s.cacheLimit = 0
  · -- the cache is off: no entry has bytes
    have hbytes := h.tidy.bytes
    rw [h.off hoff] at hbytes
    have hlen := length_le_cachedBytes hc
    exact hdisk (onDisk_of_data_nil (List.length_eq_zero_iff.mp (by omega)))
  · have hne : s.writeCache.isEmpty = false := by
      cases hcache : s.writeCache with
      | nil =>
        rw [hcache] at hc
        cases hc
      | cons _ _ => rfl
    rw [durableBitfield, if_neg (by rw [hne]; simpa using hoff)] at hbit
    exact (PieceMap.hasBit_foldl_unset hindex hbit).2 c hc rfl

/-! ## Emptying the cache -/

/-- How many writes of the disk a piece takes: one for each of its open files. -/
def pieceWrites (layout : PieceLayout) (files : List (Option F)) (index : UInt32) : Nat :=
  match layout.pieceSegments index with
  | none => 0
  | some segs => segs.countP fun seg => (files[seg.file]?).join.isSome

/-- How many writes it takes until the entries have no bytes left. -/
def writesToEmpty (layout : PieceLayout) (files : List (Option F)) : List CachedPiece → Nat
  | [] => 0
  | c :: rest =>
    if cachedBytes (c :: rest) = 0 then 0
    else pieceWrites layout files c.index + writesToEmpty layout files rest

/-- The first `n` of the outcomes are no failures. -/
def NoFailure (n : Nat) (outcomes : List Outcome) : Prop :=
  ∀ k < n, ∀ written, outcomes[k]? ≠ some (.fail written)

variable [DecidableEq F]

/-- One call, with the outcomes of the disk's writes. -/
def step (s : PieceStore F) (e : Op × List Outcome) : Option (PieceStore F) :=
  (call { s with disk := { s.disk with outcomes := e.2 } } e.1).map Prod.fst

/-- The condition on a step: no write fails that empties the cache for `set_write_cache_limit(0)`. -/
def EmptiesWhenOff (s : PieceStore F) (e : Op × List Outcome) : Prop :=
  e.1 = .setLimit 0 → NoFailure (writesToEmpty s.layout s.files s.writeCache) e.2

variable {r : Except IoError Unit}
variable {d d' : Disk F} {data : List UInt8} {more : Nat}

theorem write_outcomes {file : F} {offset : Nat} (h : d.write file offset data = (d', r))
    (hfirst : ∀ written, d.outcomes[0]? ≠ some (.fail written)) :
    r = .ok () ∧ ∀ k, d'.outcomes[k]? = d.outcomes[k + 1]? := by
  unfold Disk.write at h
  dsimp only at h
  split at h
  · rename_i hnil
    obtain ⟨rfl, rfl⟩ := Prod.mk.inj h
    refine ⟨rfl, fun k => ?_⟩
    rw [hnil]
    rfl
  · rename_i rest hdone
    obtain ⟨rfl, rfl⟩ := Prod.mk.inj h
    refine ⟨rfl, fun k => ?_⟩
    rw [hdone]
    rfl
  · rename_i written rest hfail
    exact absurd (by rw [hfail]; rfl) (hfirst written)

theorem writeSegments_outcomes {files : List (Option F)} {segs : List Segment} {written : Nat}
    (h : writeSegments files data written segs d = some (d', r))
    (hok : NoFailure ((segs.countP fun seg => (files[seg.file]?).join.isSome) + more) d.outcomes) :
    r = .ok () ∧ NoFailure more d'.outcomes := by
  induction segs generalizing written d with
  | nil =>
    obtain ⟨rfl, rfl⟩ := Prod.mk.inj (Option.some.inj h)
    rw [List.countP_nil, Nat.zero_add] at hok
    exact ⟨rfl, hok⟩
  | cons seg segs ih =>
    rw [List.countP_cons] at hok
    rw [writeSegments] at h
    split at h
    · cases h
    · cases hfile : files[seg.file]? with
      | none =>
        rw [hfile] at h
        cases h
      | some slot =>
        rw [hfile] at h hok
        cases slot with
        | none => exact ih h hok
        | some file =>
          simp only [Option.join_some, Option.isSome_some, if_true] at h hok
          split at h
          · rename_i u e hwrite
            obtain ⟨hr, -⟩ := write_outcomes hwrite fun w => hok 0 (by omega) w
            cases hr
          · rename_i u hwrite
            obtain ⟨-, hnext⟩ := write_outcomes hwrite fun w => hok 0 (by omega) w
            refine ih h fun k hk w => ?_
            rw [hnext]
            exact hok (k + 1) (by omega) w

variable {s' : PieceStore F}

theorem writePieceDirect_outcomes {index : UInt32}
    (h : s.writePieceDirect index data = some (s', r))
    (hok : NoFailure (pieceWrites s.layout s.files index + more) s.disk.outcomes) :
    r = .ok () ∧ NoFailure more s'.disk.outcomes := by
  obtain ⟨segs, hsegs, h⟩ := Option.bind_eq_some_iff.mp h
  obtain ⟨⟨d, result⟩, hwrite, heq⟩ := Option.bind_eq_some_iff.mp h
  obtain ⟨rfl, rfl⟩ := Prod.mk.inj (Option.some.inj heq)
  rw [pieceWrites, hsegs] at hok
  exact writeSegments_outcomes hwrite hok

theorem drain_outcomes {cache : List CachedPiece} {limit : Nat} (hlimit : limit = 0)
    (hbytes : s.writeCacheBytes = cachedBytes cache)
    (h : drain (fun bytes => bytes > limit) cache s = some (s', r))
    (hok : NoFailure (writesToEmpty s.layout s.files cache) s.disk.outcomes) : r = .ok () := by
  induction cache generalizing s with
  | nil =>
    obtain ⟨-, rfl⟩ := Prod.mk.inj (Option.some.inj h)
    rfl
  | cons oldest rest ih =>
    rw [drain] at h
    split at h
    · rename_i hpos
      have hpos := of_decide_eq_true hpos
      rw [writesToEmpty, if_neg (by omega)] at hok
      dsimp only at h
      split at h
      · cases h
      · rename_i u e hwrite
        cases (writePieceDirect_outcomes hwrite hok).1
      · rename_i u hwrite
        obtain ⟨-, hrest⟩ := writePieceDirect_outcomes hwrite hok
        obtain ⟨disk, rfl⟩ := writePieceDirect_frame hwrite
        refine ih ?_ h hrest
        show s.writeCacheBytes - oldest.data.length = _
        rw [hbytes, cachedBytes, Tiling.total_cons, Nat.add_sub_cancel_left]
        rfl
    · obtain ⟨-, rfl⟩ := Prod.mk.inj (Option.some.inj h)
      rfl

/-- How many operations of the disk `flush_all` takes: the writes of all entries, and one for each
open file. -/
def flushWrites (s : PieceStore F) : Nat :=
  total (fun c => pieceWrites s.layout s.files c.index) s.writeCache + s.files.countP Option.isSome

theorem flushWriteCache_outcomes {cache : List CachedPiece}
    (h : drain (fun _ => true) cache s = some (s', r))
    (hok : NoFailure (total (fun c => pieceWrites s.layout s.files c.index) cache + more)
      s.disk.outcomes) : r = .ok () ∧ NoFailure more s'.disk.outcomes := by
  induction cache generalizing s with
  | nil =>
    obtain ⟨rfl, rfl⟩ := Prod.mk.inj (Option.some.inj h)
    rw [Tiling.total_nil, Nat.zero_add] at hok
    exact ⟨rfl, hok⟩
  | cons oldest rest ih =>
    rw [Tiling.total_cons, Nat.add_assoc] at hok
    rw [drain, if_pos rfl] at h
    dsimp only at h
    split at h
    · cases h
    · rename_i u e hwrite
      cases (writePieceDirect_outcomes hwrite hok).1
    · rename_i u hwrite
      obtain ⟨-, hrest⟩ := writePieceDirect_outcomes hwrite hok
      obtain ⟨disk, rfl⟩ := writePieceDirect_frame hwrite
      exact ih h hrest

omit [DecidableEq F] in
theorem sync_outcomes {files : List (Option F)} (h : Disk.sync files d = (d', r))
    (hok : NoFailure (files.countP Option.isSome) d.outcomes) : r = .ok () := by
  induction files generalizing d with
  | nil =>
    obtain ⟨-, rfl⟩ := Prod.mk.inj h
    rfl
  | cons slot files ih =>
    rw [List.countP_cons] at hok
    cases slot with
    | none => exact ih h hok
    | some file =>
      simp only [Option.isSome_some, if_true] at hok
      rw [Disk.sync] at h
      split at h
      · rename_i hnil
        refine ih h fun k _ w => ?_
        rw [hnil]
        nofun
      · rename_i rest hdone
        refine ih h fun k hk w hfail => hok (k + 1) (by omega) w ?_
        rw [hdone]
        exact hfail
      · rename_i w rest hfail
        exact absurd (by rw [hfail]; rfl) (hok 0 (by omega) w)

/-- **A flush without failures** succeeds. -/
theorem flushAll_outcomes (h : s.flushAll = some (s', r))
    (hok : NoFailure s.flushWrites s.disk.outcomes) : r = .ok () := by
  obtain ⟨⟨u, result⟩, hflush, h⟩ := Option.bind_eq_some_iff.mp h
  obtain ⟨rfl, hrest⟩ := flushWriteCache_outcomes hflush hok
  obtain ⟨-, rfl⟩ := Prod.mk.inj (Option.some.inj h)
  exact sync_outcomes rfl ((drain_spec hflush).shape.files ▸ hrest)

theorem offIsEmpty_call {op : Op} {r : Except IoError (List UInt8)} (hs : s.OffIsEmpty)
    (h : s.call op = some (s', r))
    (hok : op = .setLimit 0 →
      NoFailure (writesToEmpty s.layout s.files s.writeCache) s.disk.outcomes) : s'.OffIsEmpty := by
  refine ⟨(call_tidy hs.tidy h).1, ?_⟩
  cases op with
  | write index data =>
    obtain ⟨⟨u, r'⟩, hcall, heq⟩ := Option.map_eq_some_iff.mp h
    obtain ⟨rfl, -⟩ := Prod.mk.inj heq
    obtain ⟨hc, -, hzero⟩ := writePiece_spec hs.tidy hcall
    intro hoff
    rw [hc.limit] at hoff
    rw [hzero hoff]
    exact hs.off hoff
  | setLimit bytes =>
    obtain ⟨⟨u, r'⟩, hcall, heq⟩ := Option.map_eq_some_iff.mp h
    obtain ⟨rfl, -⟩ := Prod.mk.inj heq
    obtain ⟨hc, hwithin⟩ := setWriteCacheLimit_spec hs.tidy hcall
    intro hoff
    rw [hc.limit] at hoff
    subst hoff
    have hr : r' = .ok () := drain_outcomes (s := { s with cacheLimit := 0 }) UInt64.toNat_zero hs.tidy.bytes hcall (hok rfl)
    have := hwithin hr
    rw [WithinLimit, hc.limit] at this
    exact Nat.le_zero.mp this
  | flushAll =>
    obtain ⟨⟨u, r'⟩, hcall, heq⟩ := Option.map_eq_some_iff.mp h
    obtain ⟨rfl, -⟩ := Prod.mk.inj heq
    obtain ⟨hc, hle, -⟩ := flushAll_spec hs.tidy hcall
    intro hoff
    rw [hc.limit] at hoff
    have := hs.off hoff
    show u.writeCacheBytes = 0
    omega
  | readPiece index =>
    obtain ⟨r', -, heq⟩ := Option.map_eq_some_iff.mp h
    obtain ⟨rfl, -⟩ := Prod.mk.inj heq
    exact hs.off
  | readBlock index start length =>
    obtain ⟨r', -, heq⟩ := Option.map_eq_some_iff.mp h
    obtain ⟨rfl, -⟩ := Prod.mk.inj heq
    exact hs.off
  | markDone index =>
    obtain ⟨rfl, -⟩ := Prod.mk.inj (Option.some.inj h)
    exact hs.off
  | markAllDone =>
    obtain ⟨rfl, -⟩ := Prod.mk.inj (Option.some.inj h)
    exact hs.off
  | setBitfield bf =>
    obtain ⟨rfl, -⟩ := Prod.mk.inj (Option.some.inj h)
    obtain ⟨map, -, heq⟩ := s.setBitfield_eq bf
    rw [heq]
    exact hs.off

theorem offIsEmpty_step {e : Op × List Outcome} (hs : s.OffIsEmpty) (hok : s.EmptiesWhenOff e)
    (h : step s e = some s') : s'.OffIsEmpty := by
  obtain ⟨⟨u, r⟩, hcall, rfl⟩ := Option.map_eq_some_iff.mp h
  exact offIsEmpty_call (s := { s with disk := { s.disk with outcomes := e.2 } })
    ⟨⟨hs.tidy.bytes, hs.tidy.unique⟩, hs.off⟩ hcall hok

/-- **The durable bitfield is sound** in every state of a run from the opening of a store, under
every pattern of failing writes, if no write fails that empties the cache to switch it off. -/
theorem run_durable {resolve : List String → F} {name : String} {layout : PieceLayout}
    {wanted : Option (List Nat)} {disk : Disk F} {s₀ : PieceStore F}
    (hopen : openAt resolve name layout wanted disk = some s₀) {es : List (Op × List Outcome)}
    (hok : StepRun.Along step EmptiesWhenOff s₀ es) :
    StepRun.Everywhere step Durable s₀ es := by
  obtain ⟨-, -, -, hbytes, -, -⟩ := openAt_spec hopen
  have hinit : s₀.OffIsEmpty := ⟨openAt_tidy hopen, fun _ => hbytes⟩
  exact StepRun.everywhere_of_along (fun s => OffIsEmpty.durable)
    (fun s e s' hs hP hstep => offIsEmpty_step hs hP hstep) hinit hok

/-- One file of four bytes, in one piece. -/
def fourBytes : PieceLayout where
  pieceLength := 4
  files := [{ path := ["a"], length := 4, offset := 0 }]
  multiFile := false

/-- The store over one new file. -/
def emptyStore : PieceStore Unit where
  layout := fourBytes
  files := [some ()]
  disk := { content := fun _ => [], outcomes := [] }
  map := .new 1
  writeCache := []
  writeCacheBytes := 0
  cacheLimit := 0

theorem emptyStore_open :
    openAt (fun _ => ()) "a" fourBytes none emptyStore.disk = some emptyStore := rfl

/-- A run that caches a piece, marks it, and switches the cache off with `outcome` as the outcome
of the write. -/
def switchOff (outcome : Outcome) : List (Op × List Outcome) :=
  [(.setLimit 8, []), (.write 0 [1, 2, 3, 4], []), (.markDone 0, []), (.setLimit 0, [outcome])]

theorem switchOff_done_durable : StepRun.Everywhere step Durable emptyStore (switchOff .done) := by
  refine run_durable emptyStore_open ⟨nofun, fun s₁ h₁ => ⟨nofun, fun s₂ h₂ => ⟨nofun,
    fun s₃ h₃ => ⟨fun _ k _ written hfail => ?_, fun _ _ => trivial⟩⟩⟩⟩
  cases k with
  | zero => cases hfail
  | succ k => cases hfail

/-- Where that write fails, the bitfield has the bit of a piece that is only cached. -/
theorem switchOff_fail_not_durable :
    ¬ StepRun.Everywhere step Durable emptyStore (switchOff (.fail 0)) := by
  intro h
  have hrun : ∃ t, StepRun.run step emptyStore ((switchOff (.fail 0)).take 4) = some t ∧
      t.map.count = 1 ∧ hasBit t.durableBitfield 0 = true ∧
      t.writeCache = [{ index := 0, data := [1, 2, 3, 4] }] ∧ t.layout = fourBytes ∧
      t.files = [some ()] ∧ t.disk.content () = [] := ⟨_, rfl, rfl, rfl, rfl, rfl, rfl, rfl⟩
  obtain ⟨t, ht, hcount, hbit, hcache, hlayout, hfiles, hcontent⟩ := hrun
  refine h 4 t ht 0 (by rw [hcount]; decide) hbit ⟨_, by rw [hcache]; exact List.mem_cons_self, rfl, ?_⟩
  intro hdisk
  have hbyte := hdisk () 0 0 1
    ⟨0, { path := ["a"], length := 4, offset := 0 }, by rw [hlayout]; rfl, by rw [hfiles]; rfl,
      by decide, by rw [hlayout]; rfl, by rw [hlayout]; decide⟩ rfl
  rw [hcontent] at hbyte
  cases hbyte

end PieceStore

end XferRust.Storage
