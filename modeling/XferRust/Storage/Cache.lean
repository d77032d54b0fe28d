import XferRust.Storage.PieceStore

/-! # The cache of the piece store

What a call does to the entries of the write-back cache, whatever the disk's writes come to:
the byte counter is the sum of the entries' lengths, no piece has two entries, entries leave
from the front, and a loop that ends without an error has done what its condition asks for.
-/
namespace XferRust.Storage
open Tiling (total)

/-- The bytes of the entries of a cache. -/
def cachedBytes (cache : List CachedPiece) : Nat := total (fun c => c.data.length) cache

theorem cachedBytes_append (xs ys : List CachedPiece) :
    cachedBytes (xs ++ ys) = cachedBytes xs + cachedBytes ys := Tiling.total_append _ xs ys

theorem length_le_cachedBytes {cache : List CachedPiece} {c : CachedPiece} (h : c ∈ cache) :
    c.data.length ≤ cachedBytes cache := Tiling.le_total (f := fun c => c.data.length) h

theorem mem_eraseEntry {cache : List CachedPiece} {index : UInt32} {c : CachedPiece}
    (h : (cache.map CachedPiece.index).Nodup) :
    c ∈ cache.eraseP (fun c => c.index = index) ↔ c ∈ cache ∧ c.index ≠ index := by
  induction cache with
  | nil => exact ⟨nofun, fun h => nomatch h.1⟩
  | cons e cache ih =>
    obtain ⟨hnot, hrest⟩ := List.nodup_cons.mp h
    by_cases he : e.index = index
    · rw [List.eraseP_cons, decide_eq_true he, cond_true]
      constructor
      · intro hc
        refine ⟨List.mem_cons_of_mem _ hc, fun hindex => hnot ?_⟩
        rw [he, ← hindex]
        exact List.mem_map_of_mem hc
      · rintro ⟨hc, hne⟩
        cases List.mem_cons.mp hc with
        | inl heq => exact absurd (heq ▸ he) hne
        | inr hc => exact hc
    · rw [List.eraseP_cons, decide_eq_false he, cond_false, List.mem_cons, List.mem_cons, ih hrest]
      constructor
      · rintro (rfl | ⟨hc, hne⟩)
        · exact ⟨.inl rfl, he⟩
        · exact ⟨.inr hc, hne⟩
      · rintro ⟨rfl | hc, hne⟩
        · exact .inl rfl
        · exact .inr ⟨hc, hne⟩

theorem cachedBytes_eraseEntry {cache : List CachedPiece} {index : UInt32} {old : CachedPiece}
    (h : cache.find? (fun c => c.index = index) = some old) :
    cachedBytes (cache.eraseP fun c => c.index = index) + old.data.length = cachedBytes cache := by
  induction cache with
  | nil => cases h
  | cons e cache ih =>
    by_cases he : e.index = index
    · rw [List.find?_cons, decide_eq_true he] at h
      obtain rfl := Option.some.inj h
      rw [List.eraseP_cons, decide_eq_true he, cond_true]
      exact Nat.add_comm _ _
    · rw [List.find?_cons, decide_eq_false he] at h
      rw [List.eraseP_cons, decide_eq_false he, cond_false]
      have := ih h
      show e.data.length + cachedBytes _ + _ = e.data.length + cachedBytes _
      omega

variable {F : Type}

namespace PieceStore

/-- The counter is right, and no piece has two entries. -/
structure Tidy (s : PieceStore F) : Prop where
  bytes : s.writeCacheBytes = cachedBytes s.writeCache
  unique : (s.writeCache.map CachedPiece.index).Nodup

/-- What no call changes. -/
structure SameShape (s s' : PieceStore F) : Prop where
  layout : s'.layout = s.layout
  files : s'.files = s.files
  count : s'.map.count = s.map.count

variable {s : PieceStore F}

theorem SameShape.trans {t u : PieceStore F} (h₁ : SameShape s t) (h₂ : SameShape t u) :
    SameShape s u :=
  ⟨h₂.layout.trans h₁.layout, h₂.files.trans h₁.files, h₂.count.trans h₁.count⟩

/-- Without its entry for a piece, the store has no entry for it. -/
theorem dropEntry_spec (hs : s.Tidy) (index : UInt32) :
    (s.dropEntry index).Tidy ∧
      (∀ c, c ∈ (s.dropEntry index).writeCache ↔ c ∈ s.writeCache ∧ c.index ≠ index) ∧
      ∃ cache bytes, s.dropEntry index =
        { s with writeCache := cache, writeCacheBytes := bytes } := by
  unfold dropEntry
  split
  · rename_i hnone
    refine ⟨hs, fun c => ⟨fun hc => ⟨hc, fun hindex => ?_⟩, And.left⟩, s.writeCache,
      s.writeCacheBytes, rfl⟩
    exact List.find?_eq_none.mp hnone c hc (decide_eq_true hindex)
  · rename_i old hold
    have hbytes := cachedBytes_eraseEntry hold
    refine ⟨⟨?_, ?_⟩, fun c => mem_eraseEntry hs.unique, _, _, rfl⟩
    · show s.writeCacheBytes - old.data.length = cachedBytes (s.writeCache.eraseP _)
      rw [hs.bytes]
      omega
    · exact hs.unique.sublist (List.eraseP_sublist.map _)

/-- A new entry for a piece that has none. -/
theorem Tidy.push (hs : s.Tidy) {index : UInt32} (data : List UInt8)
    (hnew : ∀ c ∈ s.writeCache, c.index ≠ index) :
    Tidy
      { s with
        writeCache := s.writeCache ++ [{ index, data }]
        writeCacheBytes := s.writeCacheBytes + data.length } := by
  refine ⟨?_, ?_⟩
  · show s.writeCacheBytes + data.length = cachedBytes (s.writeCache ++ [CachedPiece.mk index data])
    rw [cachedBytes_append, hs.bytes]
    rfl
  · show ((s.writeCache ++ [CachedPiece.mk index data]).map CachedPiece.index).Nodup
    rw [List.map_append, List.nodup_append]
    refine ⟨hs.unique, List.pairwise_singleton _ _, fun i hi j hj => ?_⟩
    obtain ⟨c, hc, rfl⟩ := List.mem_map.mp hi
    obtain rfl := List.mem_singleton.mp hj
    exact hnew c hc

variable [DecidableEq F]

variable {s' : PieceStore F} {r : Except IoError Unit}

theorem writePieceDirect_frame {index : UInt32} {data : List UInt8}
    (h : s.writePieceDirect index data = some (s', r)) : ∃ disk, s' = { s with disk } := by
  obtain ⟨segs, -, h⟩ := Option.bind_eq_some_iff.mp h
  obtain ⟨⟨disk, result⟩, -, h⟩ := Option.bind_eq_some_iff.mp h
  exact ⟨disk, (congrArg Prod.fst (Option.some.inj h)).symm⟩

/-- How a loop over the cache ends. -/
structure Drained (more : Nat → Bool) (cache : List CachedPiece) (s s' : PieceStore F)
    (r : Except IoError Unit) : Prop where
  shape : SameShape s s'
  map : s'.map = s.map
  limit : s'.cacheLimit = s.cacheLimit
  suffix : ∃ gone, cache = gone ++ s'.writeCache
  bytes : s.writeCacheBytes = cachedBytes cache → s'.writeCacheBytes = cachedBytes s'.writeCache
  ended : r = .ok () → s'.writeCache = [] ∨ more s'.writeCacheBytes = false

theorem drain_spec {more : Nat → Bool} {cache : List CachedPiece}
    (h : drain more cache s = some (s', r)) : Drained more cache s s' r := by
  induction cache generalizing s with
  | nil =>
    obtain ⟨rfl, rfl⟩ := Prod.mk.inj (Option.some.inj h)
    exact ⟨⟨rfl, rfl, rfl⟩, rfl, rfl, ⟨[], rfl⟩, id, fun _ => .inl rfl⟩
  | cons oldest rest ih =>
    rw [drain] at h
    split at h
    · dsimp only at h
      split at h
      · cases h
      · -- the disk fails: the entry comes back
        rename_i u e hwrite
        obtain ⟨disk, rfl⟩ := writePieceDirect_frame hwrite
        obtain ⟨rfl, rfl⟩ := Prod.mk.inj (Option.some.inj h)
        refine ⟨⟨rfl, rfl, rfl⟩, rfl, rfl, ⟨[], rfl⟩, fun hbytes => ?_, nofun⟩
        show s.writeCacheBytes - oldest.data.length + oldest.data.length =
          cachedBytes (oldest :: rest)
        have hle : oldest.data.length ≤ cachedBytes (oldest :: rest) :=
          length_le_cachedBytes List.mem_cons_self
        omega
      · rename_i u hwrite
        obtain ⟨disk, rfl⟩ := writePieceDirect_frame hwrite
        have hd := ih h
        obtain ⟨gone, hgone⟩ := hd.suffix
        refine ⟨⟨hd.shape.layout, hd.shape.files, hd.shape.count⟩, hd.map, hd.limit,
          ⟨oldest :: gone, congrArg (oldest :: ·) hgone⟩, fun hbytes => hd.bytes ?_, hd.ended⟩
        show s.writeCacheBytes - oldest.data.length = _
        rw [hbytes, cachedBytes, Tiling.total_cons, Nat.add_sub_cancel_left]
        rfl
    · rename_i hstop
      obtain ⟨rfl, rfl⟩ := Prod.mk.inj (Option.some.inj h)
      exact ⟨⟨rfl, rfl, rfl⟩, rfl, rfl, ⟨[], rfl⟩, id, fun _ => .inr (Bool.eq_false_iff.mpr hstop)⟩

omit [DecidableEq F] in
theorem Drained.tidy {more : Nat → Bool} (h : Drained more s.writeCache s s' r) (hs : s.Tidy) :
    s'.Tidy := by
  obtain ⟨gone, hgone⟩ := h.suffix
  refine ⟨h.bytes hs.bytes, ?_⟩
  have hunique := hs.unique
  rw [hgone, List.map_append] at hunique
  exact (List.nodup_append.mp hunique).2.1

/-- The entries fit in the cache. -/
def WithinLimit (s : PieceStore F) : Prop := s.writeCacheBytes ≤ s.cacheLimit.toNat

/-- What a call that writes does to the cache, when the limit has become `limit`. -/
structure CacheCall (limit : UInt64) (s s' : PieceStore F) (r : Except IoError Unit) : Prop where
  tidy : s'.Tidy
  shape : SameShape s s'
  map : s'.map = s.map
  limit : s'.cacheLimit = limit

theorem evictToLimit_spec (hs : s.Tidy) (h : s.evictToLimit = some (s', r)) :
    CacheCall s.cacheLimit s s' r ∧ (r = .ok () → s'.WithinLimit) := by
  have hd := drain_spec h
  have htidy := hd.tidy hs
  refine ⟨⟨htidy, hd.shape, hd.map, hd.limit⟩, fun hr => ?_⟩
  rw [WithinLimit, hd.limit]
  cases hd.ended hr with
  | inl hnil =>
    rw [htidy.bytes, hnil]
    exact Nat.zero_le _
  | inr hstop =>
    have := of_decide_eq_false hstop
    omega

theorem writePiece_spec {index : UInt32} {data : List UInt8} (hs : s.Tidy)
    (h : s.writePiece index data = some (s', r)) :
    CacheCall s.cacheLimit s s' r ∧ (r = .ok () → s.WithinLimit → s'.WithinLimit) ∧
      (s.cacheLimit = 0 → s'.writeCacheBytes = s.writeCacheBytes) := by
  unfold writePiece at h
  split at h
  · obtain ⟨disk, rfl⟩ := writePieceDirect_frame h
    exact ⟨⟨⟨hs.bytes, hs.unique⟩, ⟨rfl, rfl, rfl⟩, rfl, rfl⟩, fun _ hw => hw, fun _ => rfl⟩
  · rename_i hlimit
    obtain ⟨hdrop, hmem, cache, bytes, heq⟩ := dropEntry_spec hs index
    have hpush := hdrop.push data fun c hc => ((hmem c).mp hc).2
    dsimp only at h
    rw [heq] at h hpush
    obtain ⟨⟨htidy, hshape, hmap, hcl⟩, hwithin⟩ := evictToLimit_spec hpush h
    refine ⟨⟨htidy, ⟨hshape.layout, hshape.files, hshape.count⟩, hmap, hcl⟩,
      fun hr _ => hwithin hr, fun hzero => absurd ?_ hlimit⟩
    rw [hzero]
    rfl

theorem setWriteCacheLimit_spec {bytes : UInt64} (hs : s.Tidy)
    (h : s.setWriteCacheLimit bytes = some (s', r)) :
    CacheCall bytes s s' r ∧ (r = .ok () → s'.WithinLimit) := by
  obtain ⟨⟨htidy, hshape, hmap, hcl⟩, hwithin⟩ :=
    evictToLimit_spec (s := { s with cacheLimit := bytes }) ⟨hs.bytes, hs.unique⟩ h
  exact ⟨⟨htidy, ⟨hshape.layout, hshape.files, hshape.count⟩, hmap, hcl⟩, hwithin⟩

theorem flushAll_spec (hs : s.Tidy) (h : s.flushAll = some (s', r)) :
    CacheCall s.cacheLimit s s' r ∧ s'.writeCacheBytes ≤ s.writeCacheBytes ∧
      (r = .ok () → s'.writeCache = []) := by
  obtain ⟨⟨u, result⟩, hflush, h⟩ := Option.bind_eq_some_iff.mp h
  have hd := drain_spec hflush
  have htidy := hd.tidy hs
  have hle : u.writeCacheBytes ≤ s.writeCacheBytes := by
    obtain ⟨gone, hgone⟩ := hd.suffix
    rw [htidy.bytes, hs.bytes, hgone, cachedBytes_append]
    exact Nat.le_add_left _ _
  cases result with
  | error e =>
    obtain ⟨rfl, rfl⟩ := Prod.mk.inj (Option.some.inj h)
    exact ⟨⟨htidy, hd.shape, hd.map, hd.limit⟩, hle, nofun⟩
  | ok _ =>
    obtain ⟨rfl, rfl⟩ := Prod.mk.inj (Option.some.inj h)
    refine ⟨⟨⟨htidy.bytes, htidy.unique⟩, ⟨hd.shape.layout, hd.shape.files, hd.shape.count⟩,
      hd.map, hd.limit⟩, hle, fun _ => ?_⟩
    cases hd.ended rfl with
    | inl hnil => exact hnil
    | inr hstop => cases hstop

end PieceStore

/-! ## Marks -/

theorem PieceMap.set_count (m : PieceMap) (i : UInt32) : (m.set i).count = m.count := by
  unfold set
  split
  · rfl
  · rfl

theorem foldl_count {α : Type} {f : PieceMap → α → PieceMap}
    (hf : ∀ m a, (f m a).count = m.count) (xs : List α) (m : PieceMap) :
    (xs.foldl f m).count = m.count := by
  induction xs generalizing m with
  | nil => rfl
  | cons x xs ih =>
    rw [List.foldl_cons, ih]
    exact hf m x

theorem PieceMap.setFromBitfield_count (m : PieceMap) (bf : List UInt8) :
    (m.setFromBitfield bf).count = m.count := by
  refine foldl_count (fun m idx => ?_) _ m
  split
  · exact m.set_count _
  · rfl

namespace PieceStore

variable {s : PieceStore F}

/-- A mark changes the map only, and not its length. -/
theorem Tidy.mark (hs : s.Tidy) {map : PieceMap} (hcount : map.count = s.map.count) :
    Tidy { s with map } ∧ SameShape s { s with map } :=
  ⟨⟨hs.bytes, hs.unique⟩, rfl, rfl, hcount⟩

theorem markAllDone_eq (s : PieceStore F) :
    ∃ map, map.count = s.map.count ∧ s.markAllDone = { s with map } :=
  ⟨_, foldl_count (fun m _ => m.set_count _) _ _, rfl⟩

theorem setBitfield_eq (s : PieceStore F) (bf : List UInt8) :
    ∃ map, map.count = s.map.count ∧ s.setBitfield bf = { s with map } := by
  unfold setBitfield
  split
  · exact ⟨_, s.map.setFromBitfield_count bf, rfl⟩
  · exact ⟨s.map, rfl, rfl⟩

theorem openAt_spec {resolve : List String → F} {name : String} {layout : PieceLayout}
    {wanted : Option (List Nat)} {disk : Disk F}
    (h : openAt resolve name layout wanted disk = some s) :
    s.layout = layout ∧ s.disk = disk ∧ s.writeCache = [] ∧ s.writeCacheBytes = 0 ∧
      s.cacheLimit = 0 ∧ s.files.length = layout.files.length := by
  obtain ⟨count, -, h⟩ := Option.bind_eq_some_iff.mp h
  obtain rfl := Option.some.inj h
  exact ⟨rfl, rfl, rfl, rfl, rfl, List.length_mapIdx⟩

theorem openAt_tidy {resolve : List String → F} {name : String} {layout : PieceLayout}
    {wanted : Option (List Nat)} {disk : Disk F}
    (h : openAt resolve name layout wanted disk = some s) : s.Tidy := by
  obtain ⟨-, -, hcache, hbytes, -⟩ := openAt_spec h
  refine ⟨?_, ?_⟩
  · rw [hbytes, hcache]
    rfl
  · rw [hcache]
    exact List.nodup_nil

variable [DecidableEq F]

/-- **The cache's account.**  After every call the counter is right and no piece has two entries;
and where the entries fitted in the cache, they still do if the call has not failed. -/
theorem call_tidy {s' : PieceStore F} {op : Op} {r : Except IoError (List UInt8)} (hs : s.Tidy)
    (h : s.call op = some (s', r)) :
    s'.Tidy ∧ SameShape s s' ∧ ((∃ out, r = .ok out) → s.WithinLimit → s'.WithinLimit) := by
  cases op with
  | write index data =>
    obtain ⟨⟨u, r'⟩, hcall, heq⟩ := Option.map_eq_some_iff.mp h
    obtain ⟨rfl, rfl⟩ := Prod.mk.inj heq
    obtain ⟨hc, hwithin, -⟩ := writePiece_spec hs hcall
    refine ⟨hc.tidy, hc.shape, fun ⟨out, hout⟩ => hwithin ?_⟩
    cases r' with
    | error e => cases hout
    | ok _ => rfl
  | setLimit bytes =>
    obtain ⟨⟨u, r'⟩, hcall, heq⟩ := Option.map_eq_some_iff.mp h
    obtain ⟨rfl, rfl⟩ := Prod.mk.inj heq
    obtain ⟨hc, hwithin⟩ := setWriteCacheLimit_spec hs hcall
    refine ⟨hc.tidy, hc.shape, fun ⟨out, hout⟩ _ => hwithin ?_⟩
    cases r' with
    | error e => cases hout
    | ok _ => rfl
  | flushAll =>
    obtain ⟨⟨u, r'⟩, hcall, heq⟩ := Option.map_eq_some_iff.mp h
    obtain ⟨rfl, rfl⟩ := Prod.mk.inj heq
    obtain ⟨hc, hle, -⟩ := flushAll_spec hs hcall
    refine ⟨hc.tidy, hc.shape, fun _ hw => ?_⟩
    rw [WithinLimit, hc.limit]
    exact Nat.le_trans hle hw
  | readPiece index =>
    obtain ⟨r', -, heq⟩ := Option.map_eq_some_iff.mp h
    obtain ⟨rfl, -⟩ := Prod.mk.inj heq
    exact ⟨hs, ⟨rfl, rfl, rfl⟩, fun _ hw => hw⟩
  | readBlock index start length =>
    obtain ⟨r', -, heq⟩ := Option.map_eq_some_iff.mp h
    obtain ⟨rfl, -⟩ := Prod.mk.inj heq
    exact ⟨hs, ⟨rfl, rfl, rfl⟩, fun _ hw => hw⟩
  | markDone index =>
    obtain ⟨rfl, -⟩ := Prod.mk.inj (Option.some.inj h)
    obtain ⟨htidy, hshape⟩ := hs.mark (s.map.set_count index)
    exact ⟨htidy, hshape, fun _ hw => hw⟩
  | markAllDone =>
    obtain ⟨rfl, -⟩ := Prod.mk.inj (Option.some.inj h)
    obtain ⟨map, hcount, heq⟩ := s.markAllDone_eq
    rw [heq]
    obtain ⟨htidy, hshape⟩ := hs.mark hcount
    exact ⟨htidy, hshape, fun _ hw => hw⟩
  | setBitfield bf =>
    obtain ⟨rfl, -⟩ := Prod.mk.inj (Option.some.inj h)
    obtain ⟨map, hcount, heq⟩ := s.setBitfield_eq bf
    rw [heq]
    obtain ⟨htidy, hshape⟩ := hs.mark hcount
    exact ⟨htidy, hshape, fun _ hw => hw⟩

end PieceStore

end XferRust.Storage
