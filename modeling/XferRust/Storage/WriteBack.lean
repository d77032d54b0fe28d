import XferRust.Storage.Cache
import XferRust.Storage.Overlay

/-! # Write-back refines write-through

The content of a torrent, as its user knows it: the files as they were opened, and over them what
was last written to each piece.  `Holds` relates a store to that content, however much of it is
still in the cache.  A store that writes every piece straight to disk stays related to the same
content, and two stores that are related to one content read the same.
-/
namespace XferRust.Storage
open ByteFile
open PieceLayout (Placed)

variable {F : Type}

/-- What was last written to each piece. -/
abbrev Written := UInt32 → Option (List UInt8)

def Written.write (w : Written) (index : UInt32) (data : List UInt8) : Written :=
  fun i => if i = index then some data else w i

theorem Written.write_self (w : Written) (index : UInt32) (data : List UInt8) :
    w.write index data index = some data := if_pos rfl

theorem Written.write_ne {w : Written} {index i : UInt32} (h : i ≠ index) (data : List UInt8) :
    w.write index data i = w i := if_neg h

theorem Written.write_same {w : Written} {index : UInt32} {data : List UInt8}
    (h : w index = some data) : w.write index data = w := by
  funext i
  unfold write
  split
  · rename_i hi
    rw [hi, h]
  · rfl

namespace PieceStore

/-- A layout as it is built, over files of which no two are one. -/
structure Laid (s : PieceStore F) : Prop where
  placed : Placed 0 s.layout.files
  size : s.layout.size < 18446744073709551616
  handles : s.files.length = s.layout.files.length
  separate : Separate s.files 0 s.layout.files

variable {s s' : PieceStore F}

theorem Laid.of_same (h : s.Laid) (hlayout : s'.layout = s.layout) (hfiles : s'.files = s.files) :
    s'.Laid := by
  refine ⟨?_, ?_, ?_, ?_⟩
  · rw [hlayout]
    exact h.placed
  · rw [hlayout]
    exact h.size
  · rw [hlayout, hfiles]
    exact h.handles
  · rw [hlayout, hfiles]
    exact h.separate

/-- The positions that a piece covers. -/
abbrev Span (s : PieceStore F) (index : UInt32) : F → Nat → Nat → Prop :=
  Covers s.files 0 s.layout.files (index.toNat * s.layout.pieceLength.toNat)
    (min (index.toNat * s.layout.pieceLength.toNat + s.layout.pieceLength.toNat) s.layout.size)

variable {index : UInt32} {file : F} {p rel : Nat}

/-- The bytes of a piece are the positions it covers. -/
theorem Laid.byteAt_iff (h : s.Laid) :
    s.ByteAt index file p rel ↔
      s.Span index file p (index.toNat * s.layout.pieceLength.toNat + rel) := by
  constructor
  · rintro ⟨k, f, hk, hfile, hp, hpos, hrel⟩
    have := (h.placed.bounds hk).2
    refine ⟨k, f, hk, by rwa [Nat.zero_add], hp, hpos.symm, by omega, ?_⟩
    show _ < min _ (Tiling.total (fun f => f.length.toNat) s.layout.files)
    omega
  · rintro ⟨k, f, hk, hfile, hp, hpos, hlo, hhi⟩
    exact ⟨k, f, hk, by rwa [Nat.zero_add] at hfile, hp, hpos.symm, by omega⟩

theorem Laid.byteAt_of_span (h : s.Laid) {g : Nat} (hg : s.Span index file p g) :
    s.ByteAt index file p (g - index.toNat * s.layout.pieceLength.toNat) := by
  have hge : index.toNat * s.layout.pieceLength.toNat ≤ g := by
    obtain ⟨_, _, _, _, _, _, hge, _⟩ := hg
    exact hge
  refine h.byteAt_iff.mpr ?_
  rwa [Nat.add_sub_cancel' hge]

/-- A position belongs to one byte of one piece. -/
theorem Laid.byteAt_unique (h : s.Laid) {i j : UInt32} {rel' : Nat} (hi : s.ByteAt i file p rel)
    (hj : s.ByteAt j file p rel') : i = j ∧ rel = rel' := by
  obtain ⟨k, f, hk, hfile, hp, hpos, hrel⟩ := hi
  obtain ⟨k', f', hk', hfile', hp', hpos', hrel'⟩ := hj
  obtain rfl := h.separate k k' f f' file hk hk' (by rwa [Nat.zero_add]) (by rwa [Nat.zero_add])
    (by omega) (by omega)
  obtain rfl := Option.some.inj (hk.symm.trans hk')
  have hpl : 0 < s.layout.pieceLength.toNat := by omega
  have heq : i.toNat * s.layout.pieceLength.toNat + rel =
      j.toNat * s.layout.pieceLength.toNat + rel' := hpos.symm.trans hpos'
  have hdiv : ∀ (n r : Nat), r < s.layout.pieceLength.toNat →
      (n * s.layout.pieceLength.toNat + r) / s.layout.pieceLength.toNat = n := by
    intro n r hr
    rw [Nat.mul_comm, Nat.mul_add_div hpl, Nat.div_eq_of_lt hr, Nat.add_zero]
  have hij : i.toNat = j.toNat := by
    rw [← hdiv i.toNat rel hrel, heq, hdiv j.toNat rel' hrel']
  rw [hij] at heq
  exact ⟨UInt32.toNat_inj.mp hij, by omega⟩

/-- The bytes of a piece lie within its size. -/
theorem Laid.byteAt_lt (h : s.Laid) (hb : s.ByteAt index file p rel) :
    rel < s.layout.pieceSize index := by
  obtain ⟨k, f, hk, -, hp, hpos, hrel⟩ := hb
  have := (h.placed.bounds hk).2
  unfold PieceLayout.pieceSize PieceLayout.size
  omega

/-! ## The content of a store -/

/-- The files of `base`, with what was last written to the pieces over them: what is in the cache
was written last, what is not is on the disk, and the rest of the files is as it was. -/
structure Holds (base : F → List UInt8) (w : Written) (s : PieceStore F) : Prop where
  fits : ∀ index data, w index = some data → data.length = s.layout.pieceSize index
  cached : ∀ c ∈ s.writeCache, w c.index = some c.data
  onDisk : ∀ index data, w index = some data → (∀ c ∈ s.writeCache, c.index ≠ index) →
    s.OnDisk { index, data }
  other : ∀ (file : F) (p : Nat), (∀ index rel, s.ByteAt index file p rel → w index = none) →
    ((s.disk.content file)[p]?).getD 0 = ((base file)[p]?).getD 0
  grows : ∀ file : F, (base file).length ≤ (s.disk.content file).length
  reach : ∀ (file : F) (p : Nat), p < (s.disk.content file).length → p < (base file).length ∨
    ∃ p' index rel data, p ≤ p' ∧ s.ByteAt index file p' rel ∧ w index = some data

/-- Before the first call. -/
theorem holds_open (hcache : s.writeCache = []) : Holds s.disk.content (fun _ => none) s := by
  refine ⟨nofun, fun c hc => ?_, nofun, fun _ _ _ => rfl, fun _ => Nat.le_refl _,
    fun _ _ hp => .inl hp⟩
  rw [hcache] at hc
  cases hc

variable {base : F → List UInt8} {w : Written} {data : List UInt8}

/-- The cache may change as long as it keeps to what was written last. -/
theorem Holds.recache (h : Holds base w s) (hfit : data.length = s.layout.pieceSize index)
    (cache : List CachedPiece) (bytes : Nat)
    (hcache : ∀ c ∈ cache, c.index = index ∧ c.data = data ∨ c ∈ s.writeCache ∧ c.index ≠ index)
    (hkeep : ∀ c ∈ s.writeCache, c.index ≠ index → c ∈ cache)
    (hdisk : (∀ c ∈ cache, c.index ≠ index) → s.OnDisk { index, data }) :
    Holds base (w.write index data) { s with writeCache := cache, writeCacheBytes := bytes } := by
  have hmono : ∀ i, w.write index data i = none → w i = none := by
    intro i hi
    by_cases heq : i = index
    · rw [heq, Written.write_self] at hi
      cases hi
    · rwa [Written.write_ne heq] at hi
  refine ⟨fun i d hd => ?_, fun c hc => ?_, fun i d hd hno => ?_, fun file p hp => ?_, h.grows,
    fun file p hp => ?_⟩
  · by_cases heq : i = index
    · rw [heq, Written.write_self] at hd
      rw [← Option.some.inj hd, heq]
      exact hfit
    · rw [Written.write_ne heq] at hd
      exact h.fits i d hd
  · rcases hcache c hc with ⟨hindex, hdata⟩ | ⟨hc, hne⟩
    · rw [hindex, hdata, Written.write_self]
    · rw [Written.write_ne hne]
      exact h.cached c hc
  · by_cases heq : i = index
    · rw [heq, Written.write_self] at hd
      rw [← Option.some.inj hd, heq]
      exact hdisk (by rwa [heq] at hno)
    · rw [Written.write_ne heq] at hd
      refine h.onDisk i d hd fun c hc hindex => hno c (hkeep c hc ?_) hindex
      rwa [hindex]
  · exact h.other file p fun i rel hb => hmono i (hp i rel hb)
  · refine (h.reach file p hp).imp_right ?_
    rintro ⟨p', i, rel, d, hle, hb, hd⟩
    by_cases heq : i = index
    · subst heq
      exact ⟨p', i, rel, data, hle, hb, Written.write_self w i data⟩
    · exact ⟨p', i, rel, d, hle, hb, by rwa [Written.write_ne heq]⟩

/-- The bytes of a piece come to the disk: it is then what was last written to that piece. -/
theorem Holds.written (hl : s.Laid) (h : Holds base w s)
    (hfit : data.length = s.layout.pieceSize index)
    (hcache : ∀ c ∈ s.writeCache, c.index = index → c.data = data) {disk : Disk F}
    (hwrote : Wrote (s.Span index) (index.toNat * s.layout.pieceLength.toNat) data s.disk.content
      disk.content) :
    Holds base (w.write index data) { s with disk } ∧
      OnDisk { s with disk } { index, data } := by
  -- the positions of the piece are those that the write hits
  have hhit : ∀ {file : F} {p g : Nat}, s.Span index file p g → s.ByteAt index file p _ :=
    fun hg => hl.byteAt_of_span hg
  have hmine : OnDisk { s with disk } { index, data } := by
    intro file p rel b hb hdata
    obtain ⟨b', hb', hget⟩ := hwrote.inside file p _ (hl.byteAt_iff.mp hb)
    rw [Nat.add_sub_cancel_left] at hb'
    rw [← Option.some.inj (hb'.symm.trans hdata)]
    exact hget
  have hstay : ∀ {i : UInt32} {file : F} {p rel : Nat}, i ≠ index → s.ByteAt i file p rel →
      ((disk.content file)[p]?).getD 0 = ((s.disk.content file)[p]?).getD 0 := by
    intro i file p rel hne hb
    refine hwrote.outside file p fun g hg => hne ?_
    exact (hl.byteAt_unique hb (hhit hg)).1
  refine ⟨⟨fun i d hd => ?_, fun c hc => ?_, fun i d hd hno => ?_, fun file p hp => ?_,
    fun file => Nat.le_trans (h.grows file) (hwrote.grows file), fun file p hp => ?_⟩, hmine⟩
  · by_cases heq : i = index
    · rw [heq, Written.write_self] at hd
      rw [← Option.some.inj hd, heq]
      exact hfit
    · rw [Written.write_ne heq] at hd
      exact h.fits i d hd
  · by_cases heq : c.index = index
    · rw [heq, Written.write_self, hcache c hc heq]
    · rw [Written.write_ne heq]
      exact h.cached c hc
  · by_cases heq : i = index
    · rw [heq, Written.write_self] at hd
      rw [← Option.some.inj hd, heq]
      exact hmine
    · rw [Written.write_ne heq] at hd
      intro file p rel b hb hdata
      exact getElem?_eq_some_of_getD (h.onDisk i d hd hno file p rel b hb hdata)
        (hwrote.grows file) (hstay heq hb)
  · have hout : ∀ g, ¬ s.Span index file p g := by
      intro g hg
      have := hp index _ (hhit hg)
      rw [Written.write_self] at this
      cases this
    rw [hwrote.outside file p hout]
    refine h.other file p fun i rel hb => ?_
    by_cases heq : i = index
    · subst heq
      exact absurd (hl.byteAt_iff.mp hb) (hout _)
    · have := hp i rel hb
      rwa [Written.write_ne heq] at this
  · cases hwrote.reach file p hp with
    | inl hp =>
      refine (h.reach file p hp).imp_right ?_
      rintro ⟨p', i, rel, d, hle, hb, hd⟩
      by_cases heq : i = index
      · subst heq
        exact ⟨p', i, rel, data, hle, hb, Written.write_self w i data⟩
      · exact ⟨p', i, rel, d, hle, hb, by rwa [Written.write_ne heq]⟩
    | inr hnew =>
      obtain ⟨p', g, hle, hg⟩ := hnew
      exact .inr ⟨p', index, _, data, hle, hhit hg, Written.write_self w index data⟩

/-- Nothing else of a store counts. -/
theorem Holds.congr (h : Holds base w s) (hlayout : s'.layout = s.layout)
    (hfiles : s'.files = s.files) (hdisk : s'.disk.content = s.disk.content)
    (hcache : s'.writeCache = s.writeCache) : Holds base w s' := by
  obtain ⟨layout, files, ⟨content, outcomes⟩, map, cache, bytes, limit⟩ := s
  obtain ⟨layout', files', ⟨content', outcomes'⟩, map', cache', bytes', limit'⟩ := s'
  subst hlayout hfiles hdisk hcache
  exact ⟨h.fits, h.cached, h.onDisk, h.other, h.grows, h.reach⟩

/-! ## Reading -/

/-- What a store has on its disk of the last write to a piece. -/
theorem Holds.byte (hl : s.Laid) (h : Holds base w s) (hw : w index = some data)
    (hno : ∀ c ∈ s.writeCache, c.index ≠ index) (hb : s.ByteAt index file p rel) :
    ∃ b, data[rel]? = some b ∧ (s.disk.content file)[p]? = some b := by
  have hlt := hl.byteAt_lt hb
  rw [← h.fits index data hw] at hlt
  have hget := List.getElem?_eq_getElem hlt
  exact ⟨_, hget, h.onDisk index data hw hno file p rel _ hb hget⟩

theorem Holds.getD (hl : s.Laid) (h : Holds base w s) (hw : w index = some data)
    (hno : ∀ c ∈ s.writeCache, c.index ≠ index) (hb : s.ByteAt index file p rel) :
    (s.disk.content file)[p]? = some (data.getD rel 0) := by
  obtain ⟨b, hdata, hget⟩ := h.byte hl hw hno hb
  rw [List.getD_eq_getElem?_getD, hdata, hget, Option.getD_some]

variable {t : PieceStore F}

/-- The place of a byte does not depend on the contents. -/
theorem byteAt_congr (hlayout : t.layout = s.layout) (hfiles : t.files = s.files) :
    t.ByteAt index file p rel ↔ s.ByteAt index file p rel := by
  unfold ByteAt
  rw [hlayout, hfiles]

/-- **Agreement.**  Of two stores that hold one content, a store without a cache has on its disk
every byte that the other can read from its disk for a piece that is not in its cache. -/
theorem Holds.agree (hl : s.Laid) (hs : Holds base w s) (ht : Holds base w t)
    (hlayout : t.layout = s.layout) (hfiles : t.files = s.files) (hcache : t.writeCache = [])
    (hno : ∀ c ∈ s.writeCache, c.index ≠ index) (hb : s.ByteAt index file p rel) {b : UInt8}
    (hget : (s.disk.content file)[p]? = some b) : (t.disk.content file)[p]? = some b := by
  have hlt := hl.of_same hlayout hfiles
  have hbyte : ∀ {i : UInt32} {p rel : Nat}, s.ByteAt i file p rel → t.ByteAt i file p rel :=
    (byteAt_congr hlayout hfiles).mpr
  have hempty : ∀ (i : UInt32), ∀ c ∈ t.writeCache, c.index ≠ i := by
    intro i c hc
    rw [hcache] at hc
    cases hc
  cases hw : w index with
  | some data =>
    obtain ⟨b₁, hb₁, hget₁⟩ := hs.byte hl hw hno hb
    obtain ⟨b₂, hb₂, hget₂⟩ := ht.byte hlt hw (hempty index) (hbyte hb)
    rw [← Option.some.inj (hget₁.symm.trans hget), Option.some.inj (hb₁.symm.trans hb₂)]
    exact hget₂
  | none =>
    -- a byte of the files as they were opened, or of a gap
    have hnone : ∀ i rel', s.ByteAt i file p rel' → w i = none := by
      intro i rel' hb'
      rw [(hl.byteAt_unique hb' hb).1, hw]
    have hsame : ((t.disk.content file)[p]?).getD 0 = ((s.disk.content file)[p]?).getD 0 := by
      rw [hs.other file p hnone, ht.other file p fun i rel' hb' =>
        hnone i rel' ((byteAt_congr hlayout hfiles).mp hb')]
    have hlong : p < (t.disk.content file).length := by
      obtain ⟨hp, -⟩ := List.getElem?_eq_some_iff.mp hget
      rcases hs.reach file p hp with hp | ⟨p', i, rel', data, hle, hb', hw'⟩
      · exact Nat.lt_of_lt_of_le hp (ht.grows file)
      · obtain ⟨b', -, hget'⟩ := ht.byte hlt hw' (hempty i) (hbyte hb')
        obtain ⟨hp', -⟩ := List.getElem?_eq_some_iff.mp hget'
        omega
    rw [hget, List.getElem?_eq_getElem hlong] at hsame
    rw [List.getElem?_eq_getElem hlong]
    exact congrArg some hsame

theorem cacheGet_none (h : s.cacheGet index = none) : ∀ c ∈ s.writeCache, c.index ≠ index := by
  intro c hc hindex
  have := List.find?_eq_none.mp (Option.map_eq_none_iff.mp h) c hc
  exact this (decide_eq_true hindex)

theorem cacheGet_some (h : s.cacheGet index = some data) :
    ∃ c ∈ s.writeCache, c.index = index ∧ c.data = data := by
  obtain ⟨c, hc, rfl⟩ := Option.map_eq_some_iff.mp h
  have hindex := List.find?_some (p := fun c : CachedPiece => decide (c.index = index)) hc
  exact ⟨c, List.mem_of_find?_eq_some hc, of_decide_eq_true hindex, rfl⟩

theorem cacheGet_nil (h : s.writeCache = []) (index : UInt32) : s.cacheGet index = none := by
  rw [cacheGet, h]
  rfl

/-- What `read_piece` returns for a store with a cache, it returns for one without. -/
theorem readPiece_agree (hl : s.Laid) (hs : Holds base w s) (ht : Holds base w t)
    (hlayout : t.layout = s.layout) (hfiles : t.files = s.files) (hcache : t.writeCache = [])
    {out : List UInt8} (h : s.readPiece index = some (.ok out)) :
    t.readPiece index = some (.ok out) := by
  have hlt := hl.of_same hlayout hfiles
  obtain ⟨segs, hsegs, h⟩ := Option.bind_eq_some_iff.mp h
  obtain ⟨ps, pe, hspan, hps, hpe, -⟩ := PieceLayout.pieceSegments_eq_some hsegs
  have hempty : ∀ c ∈ t.writeCache, c.index ≠ index := by
    intro c hc
    rw [hcache] at hc
    cases hc
  have hsame : ∀ {p rel : Nat} {file : F}, s.ByteAt index file p rel → t.ByteAt index file p rel :=
    (byteAt_congr hlayout hfiles).mpr
  simp only [readPiece, hlayout, hsegs, cacheGet_nil hcache, hfiles, Option.bind_eq_bind,
    Option.bind_some]
  cases hget : s.cacheGet index with
  | none =>
    rw [hget] at h
    refine readSegments_mono (fun file p g b hg hb => ?_) hspan h
    rw [hps, hpe] at hg
    exact hs.agree hl ht hlayout hfiles hcache (cacheGet_none hget) (hl.byteAt_of_span hg) hb
  | some data =>
    rw [hget] at h
    obtain ⟨out', hcached, hout⟩ := Option.map_eq_some_iff.mp h
    obtain ⟨c, hc, rfl, rfl⟩ := cacheGet_some hget
    have hw := hs.cached c hc
    have hsize : pe.toNat - ps.toNat ≤ c.data.length := by
      rw [hs.fits _ _ hw, hps, hpe]
      unfold PieceLayout.pieceSize
      omega
    have hcached' := cachedSegments_eq hsize (by rw [Nat.zero_add, hl.handles]) hl.placed hspan
    have hzero : reached ps.toNat pe.toNat 0 = 0 := by
      unfold reached
      omega
    rw [hzero, hcached] at hcached'
    obtain rfl := Option.some.inj hcached'
    rw [← hout]
    refine readSegments_eq (by rw [Nat.zero_add, hl.handles]) hl.placed (fun file p g hg => ?_) hspan
    rw [hps, hpe] at hg
    rw [hps]
    exact ht.getD hlt hw hempty (hsame (hl.byteAt_of_span hg))

/-- What `read_block` returns for a store with a cache, it returns for one without. -/
theorem readBlock_agree (hl : s.Laid) (hs : Holds base w s) (ht : Holds base w t)
    (hlayout : t.layout = s.layout) (hfiles : t.files = s.files) (hcache : t.writeCache = [])
    {start length : UInt32} (hin : start.toNat + length.toNat ≤ s.layout.pieceSize index)
    {out : List UInt8} (h : s.readBlock index start length = some (.ok out)) :
    t.readBlock index start length = some (.ok out) := by
  have hlt := hl.of_same hlayout hfiles
  obtain ⟨ps, hmul, h⟩ := Option.bind_eq_some_iff.mp h
  obtain ⟨bs, hadd, h⟩ := Option.bind_eq_some_iff.mp h
  obtain ⟨be, hadd', h⟩ := Option.bind_eq_some_iff.mp h
  have hps : ps.toNat = index.toNat * s.layout.pieceLength.toNat := Checked.mul_eq_some.mp hmul
  have hbs : bs.toNat = ps.toNat + start.toNat := Checked.add_eq_some.mp hadd
  have hbe : be.toNat = bs.toNat + length.toNat := Checked.add_eq_some.mp hadd'
  have hempty : ∀ c ∈ t.writeCache, c.index ≠ index := by
    intro c hc
    rw [hcache] at hc
    cases hc
  -- the block lies within the piece
  have hwithin : ∀ {file : F} {p g : Nat}, Covers s.files 0 s.layout.files bs.toNat be.toNat file p g →
      s.ByteAt index file p (g - ps.toNat) := by
    intro file p g hg
    rw [hps]
    refine hl.byteAt_of_span (hg.mono ?_)
    unfold PieceLayout.pieceSize at hin
    omega
  obtain ⟨segs, hsegs⟩ := @PieceLayout.exists_segmentsFrom bs be (by omega) s.layout.files 0 0
    hl.placed (by rw [Nat.zero_add]; exact hl.size)
  simp only [readBlock, hlayout, hmul, hadd, hadd', cacheGet_nil hcache, hfiles, diskBlock_eq hsegs,
    Option.bind_eq_bind, Option.bind_some]
  cases hget : s.cacheGet index with
  | none =>
    rw [hget] at h
    rw [diskBlock_eq hsegs] at h
    exact readSegments_mono (fun file p g b hg hb => hs.agree hl ht hlayout hfiles hcache
      (cacheGet_none hget) (hwithin hg) hb) hsegs h
  | some data =>
    rw [hget] at h
    obtain ⟨out', hcached, hout⟩ := Option.map_eq_some_iff.mp h
    obtain ⟨c, hc, rfl, rfl⟩ := cacheGet_some hget
    have hw := hs.cached c hc
    have hlen := hs.fits _ _ hw
    rw [cachedBlock_eq (by omega) (by omega) (by omega) (by rw [Nat.zero_add, hl.handles]) hl.placed
      (by rw [Nat.zero_add]; exact hl.size)] at hcached
    obtain rfl := Option.some.inj hcached
    rw [← hout]
    refine readSegments_eq (by rw [Nat.zero_add, hl.handles]) hl.placed (fun file p g hg => ?_) hsegs
    exact ht.getD hlt hw hempty ((byteAt_congr hlayout hfiles).mpr (hwithin hg))

/-! ## Writing -/

variable [DecidableEq F]

/-- A piece written straight to the disk, by any store over the same files. -/
theorem Holds.direct (hl : s.Laid) (h : Holds base w s) (hno : s.disk.outcomes = [])
    (hfit : data.length = s.layout.pieceSize index)
    (hcache : ∀ c ∈ s.writeCache, c.index = index → c.data = data) {segs : List Segment}
    (hsegs : s.layout.pieceSegments index = some segs) :
    ∃ disk : Disk F, disk.outcomes = [] ∧ Holds base (w.write index data) { s with disk } ∧
      OnDisk { s with disk } { index, data } ∧
      ∀ u : PieceStore F, u.layout = s.layout → u.files = s.files → u.disk = s.disk →
        u.writePieceDirect index data = some ({ u with disk }, .ok ()) := by
  obtain ⟨ps, pe, hspan, hps, hpe, -⟩ := PieceLayout.pieceSegments_eq_some hsegs
  have hsize : pe.toNat - ps.toNat ≤ data.length := by
    rw [hfit, hps, hpe]
    unfold PieceLayout.pieceSize
    omega
  obtain ⟨disk, hwrite, hno', hwrote⟩ := writeSegments_wrote hsize
    (by rw [Nat.zero_add, hl.handles]) hl.placed hl.separate hspan hno
  rw [hps, hpe] at hwrote
  obtain ⟨hholds, hdisk⟩ := h.written hl hfit hcache hwrote
  refine ⟨disk, hno', hholds, hdisk, fun u hlayout hfiles hu => ?_⟩
  have hzero : reached ps.toNat pe.toNat 0 = 0 := by
    unfold reached
    omega
  rw [hzero] at hwrite
  simp only [writePieceDirect, hlayout, hfiles, hu, hsegs, hwrite, Option.bind_eq_bind,
    Option.bind_some]

theorem segments_of_direct {r : PieceStore F × Except IoError Unit}
    (h : s.writePieceDirect index data = some r) :
    ∃ segs, s.layout.pieceSegments index = some segs := by
  obtain ⟨segs, hsegs, -⟩ := Option.bind_eq_some_iff.mp h
  exact ⟨segs, hsegs⟩

variable {r : Except IoError Unit}

/-- A loop over the cache does not change the content. -/
theorem drain_holds {more : Nat → Bool} {cache : List CachedPiece} (hl : s.Laid)
    (hno : s.disk.outcomes = []) (hunique : (cache.map CachedPiece.index).Nodup)
    (h : Holds base w { s with writeCache := cache }) (hd : drain more cache s = some (s', r)) :
    r = .ok () ∧ s'.disk.outcomes = [] ∧ Holds base w s' := by
  induction cache generalizing s with
  | nil =>
    obtain ⟨rfl, rfl⟩ := Prod.mk.inj (Option.some.inj hd)
    exact ⟨rfl, hno, h⟩
  | cons oldest rest ih =>
    rw [drain] at hd
    split at hd
    · dsimp only at hd
      obtain ⟨hnot, hrest⟩ := List.nodup_cons.mp hunique
      have hw := h.cached oldest List.mem_cons_self
      -- the entry is what was last written to its piece, so writing it again changes nothing
      have hmine : ∀ c ∈ oldest :: rest, c.index = oldest.index → c.data = oldest.data := by
        intro c hc hindex
        have := h.cached c hc
        rw [hindex, hw] at this
        exact (Option.some.inj this).symm
      have hsome : ∃ segs, s.layout.pieceSegments oldest.index = some segs := by
        split at hd
        · cases hd
        · rename_i hwrite
          exact segments_of_direct (s := { s with
            writeCacheBytes := s.writeCacheBytes - oldest.data.length }) hwrite
        · rename_i hwrite
          exact segments_of_direct (s := { s with
            writeCacheBytes := s.writeCacheBytes - oldest.data.length }) hwrite
      obtain ⟨segs, hsegs⟩ := hsome
      obtain ⟨disk, hno', hholds, hdisk, hdirect⟩ :=
        Holds.direct (s := { s with writeCache := oldest :: rest })
          ⟨hl.placed, hl.size, hl.handles, hl.separate⟩ h hno (h.fits _ _ hw) hmine hsegs
      rw [hdirect { s with writeCacheBytes := s.writeCacheBytes - oldest.data.length } rfl rfl
        rfl] at hd
      rw [Written.write_same hw] at hholds
      have hforget := hholds.recache (h.fits _ _ hw) rest
        (s.writeCacheBytes - oldest.data.length)
        (fun c hc => .inr ⟨List.mem_cons_of_mem _ hc, fun hindex =>
          hnot (by rw [← hindex]; exact List.mem_map_of_mem hc)⟩)
        (fun c hc hne => (List.mem_cons.mp hc).resolve_left fun heq => hne (by rw [heq]))
        (fun _ => hdisk)
      rw [Written.write_same hw] at hforget
      exact ih (s := { s with writeCacheBytes := s.writeCacheBytes - oldest.data.length, disk })
        ⟨hl.placed, hl.size, hl.handles, hl.separate⟩ hno' hrest
        (hforget.congr rfl rfl rfl rfl) hd
    · obtain ⟨rfl, rfl⟩ := Prod.mk.inj (Option.some.inj hd)
      exact ⟨rfl, hno, h⟩

/-! ## The calls -/

theorem writePiece_holds (hl : s.Laid) (ht : s.Tidy) (hwithin : s.WithinLimit)
    (hno : s.disk.outcomes = []) (h : Holds base w s)
    (hfit : data.length = s.layout.pieceSize index)
    (hcall : s.writePiece index data = some (s', r)) :
    r = .ok () ∧ s'.disk.outcomes = [] ∧ Holds base (w.write index data) s' := by
  unfold writePiece at hcall
  split at hcall
  · -- past the cache; an entry of the piece would not fit in the cache, unless it is empty
    rename_i hdirect
    rw [Bool.or_eq_true, decide_eq_true_eq, decide_eq_true_eq] at hdirect
    have hmine : ∀ c ∈ s.writeCache, c.index = index → c.data = data := by
      intro c hc hindex
      have hlen := h.fits _ _ (h.cached c hc)
      rw [hindex, ← hfit] at hlen
      have hle := length_le_cachedBytes hc
      rw [← ht.bytes] at hle
      have hle := Nat.le_trans hle hwithin
      rcases hdirect with hzero | hgt
      · rw [hzero, UInt64.toNat_zero] at hle
        rw [List.length_eq_zero_iff.mp (show c.data.length = 0 by omega),
          List.length_eq_zero_iff.mp (show data.length = 0 by omega)]
      · omega
    obtain ⟨segs, hsegs⟩ := segments_of_direct hcall
    obtain ⟨disk, hno', hholds, -, hdirect⟩ := h.direct hl hno hfit hmine hsegs
    rw [hdirect s rfl rfl rfl] at hcall
    obtain ⟨rfl, rfl⟩ := Prod.mk.inj (Option.some.inj hcall)
    exact ⟨rfl, hno', hholds⟩
  · obtain ⟨hdrop, hmem, cache, bytes, heq⟩ := dropEntry_spec ht index
    have hpush := hdrop.push data fun c hc => ((hmem c).mp hc).2
    dsimp only at hcall
    rw [heq] at hcall hpush hmem
    have hnew := h.recache hfit (cache ++ [CachedPiece.mk index data])
      (bytes + data.length)
      (fun c hc => by
        rcases List.mem_append.mp hc with hc | hc
        · exact .inr ((hmem c).mp hc)
        · rw [List.mem_singleton.mp hc]
          exact .inl ⟨rfl, rfl⟩)
      (fun c hc hne => List.mem_append_left _ ((hmem c).mpr ⟨hc, hne⟩))
      (fun hnone => absurd rfl
        (hnone (CachedPiece.mk index data) (List.mem_append_right _ List.mem_cons_self)))
    exact drain_holds
      (s := { s with
        writeCache := cache ++ [CachedPiece.mk index data]
        writeCacheBytes := bytes + data.length })
      ⟨hl.placed, hl.size, hl.handles, hl.separate⟩ hno hpush.unique hnew hcall

theorem setWriteCacheLimit_holds {bytes : UInt64} (hl : s.Laid) (ht : s.Tidy)
    (hno : s.disk.outcomes = []) (h : Holds base w s)
    (hcall : s.setWriteCacheLimit bytes = some (s', r)) :
    r = .ok () ∧ s'.disk.outcomes = [] ∧ Holds base w s' :=
  drain_holds (s := { s with cacheLimit := bytes }) ⟨hl.placed, hl.size, hl.handles, hl.separate⟩
    hno ht.unique (h.congr rfl rfl rfl rfl) hcall

omit [DecidableEq F] in
theorem sync_ok {d : Disk F} (h : d.outcomes = []) (files : List (Option F)) :
    Disk.sync files d = (d, .ok ()) := by
  induction files with
  | nil => rfl
  | cons slot files ih =>
    cases slot with
    | none => exact ih
    | some file =>
      rw [Disk.sync, h]
      exact ih

theorem flushAll_holds (hl : s.Laid) (ht : s.Tidy) (hno : s.disk.outcomes = [])
    (h : Holds base w s) (hcall : s.flushAll = some (s', r)) :
    r = .ok () ∧ s'.disk.outcomes = [] ∧ Holds base w s' := by
  obtain ⟨⟨u, result⟩, hflush, hcall⟩ := Option.bind_eq_some_iff.mp hcall
  obtain ⟨rfl, hno', hholds⟩ := drain_holds hl hno ht.unique h hflush
  dsimp only at hcall
  rw [sync_ok hno'] at hcall
  obtain ⟨rfl, rfl⟩ := Prod.mk.inj (Option.some.inj hcall)
  exact ⟨rfl, hno', hholds⟩

/-! ## Runs -/

end PieceStore

/-- What has been written last after a call. -/
def Written.after (w : Written) : Op → Written
  | .write index data => w.write index data
  | _ => w

/-- What a list of calls has written last to each piece. -/
def lastWritten (ops : List Op) : Written := ops.foldl Written.after fun _ => none

namespace Op

/-- A write has the data of the whole piece, and a block lies within its piece. -/
def Fits (l : PieceLayout) : Op → Prop
  | .write index data => ∃ n, l.pieceLen index = some n ∧ data.length = n.toNat
  | .readBlock index start length =>
    ∃ n, l.pieceLen index = some n ∧ start.toNat + length.toNat ≤ n.toNat
  | _ => True

/-- The same call without a cache. -/
def writeThrough : Op → Op
  | .setLimit _ => .setLimit 0
  | op => op

end Op

namespace PieceStore

/-- No two open files that hold bytes are one file. -/
def SeparateFiles (s : PieceStore F) : Prop := Separate s.files 0 s.layout.files

/-- A store between two calls, when no operation of the disk fails. -/
structure Sound (base : F → List UInt8) (w : Written) (s : PieceStore F) : Prop where
  laid : s.Laid
  tidy : s.Tidy
  within : s.WithinLimit
  holds : Holds base w s
  outcomes : s.disk.outcomes = []

/-- Without a cache. -/
structure Bare (t : PieceStore F) : Prop where
  cache : t.writeCache = []
  limit : t.cacheLimit = 0

variable {out : List UInt8} {op : Op} {ops : List Op} {outs : List (List UInt8)}

theorem out_nil {r : Except IoError Unit} (h : r.map (fun _ => []) = .ok out) : out = [] := by
  cases r with
  | error e => cases h
  | ok _ => exact (Except.ok.inj h).symm

variable [DecidableEq F]

/-- The calls of a run in which none panics and no operation of the disk fails: the last state,
and what each call returns. -/
def exec (s : PieceStore F) : List Op → Option (PieceStore F × List (List UInt8))
  | [] => some (s, [])
  | op :: ops =>
    match s.call op with
    | some (s, .ok out) => (exec s ops).map fun r => (r.1, out :: r.2)
    | _ => none

variable {s s' : PieceStore F} {base : F → List UInt8} {w : Written}

theorem Sound.call (h : Sound base w s) (hfit : op.Fits s.layout)
    (hcall : s.call op = some (s', .ok out)) : Sound base (w.after op) s' ∧ SameShape s s' := by
  obtain ⟨htidy, hshape, hwithin⟩ := call_tidy h.tidy hcall
  have hlaid := h.laid.of_same hshape.layout hshape.files
  suffices hh : Holds base (w.after op) s' ∧ s'.disk.outcomes = [] from
    ⟨⟨hlaid, htidy, hwithin ⟨out, rfl⟩ h.within, hh.1, hh.2⟩, hshape⟩
  cases op with
  | write index data =>
    obtain ⟨⟨u, r⟩, hwrite, heq⟩ := Option.map_eq_some_iff.mp hcall
    obtain ⟨rfl, -⟩ := Prod.mk.inj heq
    obtain ⟨n, hn, hlen⟩ := hfit
    obtain ⟨-, hno, hholds⟩ := writePiece_holds h.laid h.tidy h.within h.outcomes h.holds
      (hlen.trans (PieceLayout.pieceLen_eq_some hn)) hwrite
    exact ⟨hholds, hno⟩
  | setLimit bytes =>
    obtain ⟨⟨u, r⟩, hset, heq⟩ := Option.map_eq_some_iff.mp hcall
    obtain ⟨rfl, -⟩ := Prod.mk.inj heq
    obtain ⟨-, hno, hholds⟩ := setWriteCacheLimit_holds h.laid h.tidy h.outcomes h.holds hset
    exact ⟨hholds, hno⟩
  | flushAll =>
    obtain ⟨⟨u, r⟩, hflush, heq⟩ := Option.map_eq_some_iff.mp hcall
    obtain ⟨rfl, -⟩ := Prod.mk.inj heq
    obtain ⟨-, hno, hholds⟩ := flushAll_holds h.laid h.tidy h.outcomes h.holds hflush
    exact ⟨hholds, hno⟩
  | readPiece index =>
    obtain ⟨r, -, heq⟩ := Option.map_eq_some_iff.mp hcall
    obtain ⟨rfl, -⟩ := Prod.mk.inj heq
    exact ⟨h.holds, h.outcomes⟩
  | readBlock index start length =>
    obtain ⟨r, -, heq⟩ := Option.map_eq_some_iff.mp hcall
    obtain ⟨rfl, -⟩ := Prod.mk.inj heq
    exact ⟨h.holds, h.outcomes⟩
  | markDone index =>
    obtain ⟨rfl, -⟩ := Prod.mk.inj (Option.some.inj hcall)
    exact ⟨h.holds.congr rfl rfl rfl rfl, h.outcomes⟩
  | markAllDone =>
    obtain ⟨rfl, -⟩ := Prod.mk.inj (Option.some.inj hcall)
    exact ⟨h.holds.congr rfl rfl rfl rfl, h.outcomes⟩
  | setBitfield bf =>
    obtain ⟨rfl, -⟩ := Prod.mk.inj (Option.some.inj hcall)
    obtain ⟨map, -, heq⟩ := s.setBitfield_eq bf
    rw [heq]
    exact ⟨h.holds.congr rfl rfl rfl rfl, h.outcomes⟩

/-- **Simulation step.**  A store without a cache follows a call, and returns the same, unless
the arithmetic of the segments of a written piece overflows. -/
theorem Sound.follow {t : PieceStore F} (hs : Sound base w s) (ht : Sound base w t) (hbare : t.Bare)
    (hlayout : t.layout = s.layout) (hfiles : t.files = s.files) (hfit : op.Fits s.layout)
    (hsegs : ∀ index data, op = .write index data →
      ∃ segs, s.layout.pieceSegments index = some segs) (hcall : s.call op = some (s', .ok out)) :
    ∃ t', t.call op.writeThrough = some (t', .ok out) ∧ t'.Bare := by
  cases op with
  | write index data =>
    obtain ⟨segs, hsegs⟩ := hsegs index data rfl
    obtain ⟨n, hn, hlen⟩ := hfit
    rw [← hlayout] at hsegs hn
    obtain ⟨disk, -, -, -, hdirect⟩ := ht.holds.direct ht.laid ht.outcomes
      (hlen.trans (PieceLayout.pieceLen_eq_some hn))
      (fun c hc => by rw [hbare.cache] at hc; cases hc) hsegs
    obtain ⟨⟨u, r⟩, -, heq⟩ := Option.map_eq_some_iff.mp hcall
    obtain ⟨-, hout⟩ := Prod.mk.inj heq
    obtain rfl := out_nil hout
    have hwrite : t.writePiece index data = t.writePieceDirect index data := by
      unfold writePiece
      rw [if_pos (by rw [hbare.limit]; rfl)]
    refine ⟨{ t with disk }, ?_, hbare.cache, hbare.limit⟩
    exact Option.map_eq_some_iff.mpr ⟨_, hwrite.trans (hdirect t rfl rfl rfl), rfl⟩
  | setLimit bytes =>
    obtain ⟨⟨u, r⟩, -, heq⟩ := Option.map_eq_some_iff.mp hcall
    obtain ⟨-, hout⟩ := Prod.mk.inj heq
    obtain rfl := out_nil hout
    refine ⟨{ t with cacheLimit := 0, writeCache := [] }, ?_, rfl, rfl⟩
    have hset : t.setWriteCacheLimit 0 =
        some ({ t with cacheLimit := 0, writeCache := [] }, .ok ()) := by
      rw [setWriteCacheLimit, evictToLimit, hbare.cache]
      rfl
    exact Option.map_eq_some_iff.mpr ⟨_, hset, rfl⟩
  | flushAll =>
    obtain ⟨⟨u, r⟩, -, heq⟩ := Option.map_eq_some_iff.mp hcall
    obtain ⟨-, hout⟩ := Prod.mk.inj heq
    obtain rfl := out_nil hout
    refine ⟨{ t with writeCache := [] }, ?_, rfl, hbare.limit⟩
    have hflush : t.flushAll = some ({ t with writeCache := [] }, .ok ()) := by
      rw [flushAll, flushWriteCache, hbare.cache, drain]
      simp only [Option.bind_eq_bind, Option.bind_some, sync_ok ht.outcomes]
    exact Option.map_eq_some_iff.mpr ⟨_, hflush, rfl⟩
  | readPiece index =>
    obtain ⟨r, hread, heq⟩ := Option.map_eq_some_iff.mp hcall
    obtain ⟨-, rfl⟩ := Prod.mk.inj heq
    exact ⟨t, Option.map_eq_some_iff.mpr ⟨_, readPiece_agree hs.laid hs.holds ht.holds hlayout
      hfiles hbare.cache hread, rfl⟩, hbare⟩
  | readBlock index start length =>
    obtain ⟨r, hread, heq⟩ := Option.map_eq_some_iff.mp hcall
    obtain ⟨-, rfl⟩ := Prod.mk.inj heq
    obtain ⟨n, hn, hle⟩ := hfit
    rw [PieceLayout.pieceLen_eq_some hn] at hle
    exact ⟨t, Option.map_eq_some_iff.mpr ⟨_, readBlock_agree hs.laid hs.holds ht.holds hlayout
      hfiles hbare.cache hle hread, rfl⟩, hbare⟩
  | markDone index =>
    obtain ⟨-, hout⟩ := Prod.mk.inj (Option.some.inj hcall)
    obtain rfl := Except.ok.inj hout
    exact ⟨_, rfl, hbare.cache, hbare.limit⟩
  | markAllDone =>
    obtain ⟨-, hout⟩ := Prod.mk.inj (Option.some.inj hcall)
    obtain rfl := Except.ok.inj hout
    exact ⟨_, rfl, hbare.cache, hbare.limit⟩
  | setBitfield bf =>
    obtain ⟨-, hout⟩ := Prod.mk.inj (Option.some.inj hcall)
    obtain rfl := Except.ok.inj hout
    obtain ⟨map, -, heq⟩ := t.setBitfield_eq bf
    refine ⟨t.setBitfield bf, rfl, ?_⟩
    rw [heq]
    exact ⟨hbare.cache, hbare.limit⟩

theorem exec_cons :
    exec s (op :: ops) = some (s', outs) ↔ ∃ u out rest, s.call op = some (u, .ok out) ∧
      exec u ops = some (s', rest) ∧ outs = out :: rest := by
  rw [exec]
  constructor
  · intro h
    split at h
    · rename_i u out hcall
      obtain ⟨⟨v, rest⟩, hrest, heq⟩ := Option.map_eq_some_iff.mp h
      obtain ⟨rfl, rfl⟩ := Prod.mk.inj heq
      exact ⟨u, out, rest, hcall, hrest, rfl⟩
    · cases h
  · rintro ⟨u, out, rest, hcall, hrest, rfl⟩
    rw [hcall]
    exact Option.map_eq_some_iff.mpr ⟨_, hrest, rfl⟩

theorem Sound.exec (h : Sound base w s) (hfit : ∀ op ∈ ops, op.Fits s.layout)
    (hexec : exec s ops = some (s', outs)) : Sound base (ops.foldl Written.after w) s' := by
  induction ops generalizing w s outs with
  | nil =>
    obtain ⟨rfl, -⟩ := Prod.mk.inj (Option.some.inj hexec)
    exact h
  | cons op ops ih =>
    obtain ⟨u, out, rest, hcall, hrest, -⟩ := exec_cons.mp hexec
    obtain ⟨hu, hshape⟩ := h.call (hfit op List.mem_cons_self) hcall
    exact ih hu (fun op hop => by
      rw [hshape.layout]
      exact hfit op (List.mem_cons_of_mem _ hop)) hrest

theorem Sound.exec_follow {t : PieceStore F} (hs : Sound base w s) (ht : Sound base w t)
    (hbare : t.Bare) (hlayout : t.layout = s.layout) (hfiles : t.files = s.files)
    (hfit : ∀ op ∈ ops, op.Fits s.layout) (hsegs : ∀ index data, .write index data ∈ ops →
      ∃ segs, s.layout.pieceSegments index = some segs)
    (hexec : PieceStore.exec s ops = some (s', outs)) :
    ∃ t', PieceStore.exec t (ops.map Op.writeThrough) = some (t', outs) := by
  induction ops generalizing w s t outs with
  | nil =>
    obtain ⟨-, rfl⟩ := Prod.mk.inj (Option.some.inj hexec)
    exact ⟨t, rfl⟩
  | cons op ops ih =>
    obtain ⟨u, out, rest, hcall, hrest, rfl⟩ := exec_cons.mp hexec
    have hop := hfit op List.mem_cons_self
    obtain ⟨hu, hshape⟩ := hs.call hop hcall
    obtain ⟨v, hcall', hbare'⟩ := hs.follow ht hbare hlayout hfiles hop
      (fun index data heq => hsegs index data (heq ▸ List.mem_cons_self)) hcall
    have hthrough : op.writeThrough.Fits t.layout ∧ w.after op.writeThrough = w.after op := by
      rw [hlayout]
      cases op with
      | setLimit bytes => exact ⟨trivial, rfl⟩
      | _ => exact ⟨hop, rfl⟩
    obtain ⟨hv, hshape'⟩ := ht.call hthrough.1 hcall'
    rw [hthrough.2] at hv
    obtain ⟨t', ht'⟩ := ih hu hv hbare'
      (by rw [hshape'.layout, hshape.layout, hlayout]) (by rw [hshape'.files, hshape.files, hfiles])
      (fun op hop => by
        rw [hshape.layout]
        exact hfit op (List.mem_cons_of_mem _ hop))
      (fun index data hmem => by
        rw [hshape.layout]
        exact hsegs index data (List.mem_cons_of_mem _ hmem)) hrest
    exact ⟨t', exec_cons.mpr ⟨v, out, rest, hcall', ht', rfl⟩⟩

omit [DecidableEq F] in
theorem openAt_sound {resolve : List String → F} {name : String} {pieceLength : UInt64}
    {files : List (List String × UInt64)} {layout : PieceLayout}
    (hnew : PieceLayout.new pieceLength files = some layout) {multiFile : Bool}
    {wanted : Option (List Nat)} {disk : Disk F} (hno : disk.outcomes = [])
    (hopen : openAt resolve name (layout.withMultiFile multiFile) wanted disk = some s)
    (hsep : s.SeparateFiles) : Sound disk.content (fun _ => none) s ∧ s.Bare := by
  obtain ⟨hlayout, hdisk, hcache, hbytes, hlimit, hfiles⟩ := openAt_spec hopen
  obtain ⟨ls, hplace, hnew⟩ := Option.bind_eq_some_iff.mp hnew
  obtain rfl := Option.some.inj hnew
  obtain ⟨hplaced, -, hlt⟩ := PieceLayout.place_spec hplace
  rw [UInt64.toNat_zero, Nat.zero_add] at hlt
  have hholds := holds_open hcache
  rw [hdisk] at hholds
  refine ⟨⟨⟨?_, ?_, ?_, hsep⟩, openAt_tidy hopen, ?_, hholds, ?_⟩, hcache, hlimit⟩
  · rw [hlayout]
    exact hplaced
  · rw [hlayout]
    exact hlt
  · rw [hfiles, hlayout]
  · rw [WithinLimit, hbytes]
    exact Nat.zero_le _
  · rw [hdisk]
    exact hno

/-- **Write-back refines write-through**, in every run from the opening of a store over separate
files: the account of the cache is right; a store that writes every piece straight to disk returns
the same, unless the segments of a written piece are beyond the arithmetic; and `flush_all` leaves
the last written content of every piece on the disk. -/
theorem exec_writeThrough {resolve : List String → F} {name : String} {pieceLength : UInt64}
    {files : List (List String × UInt64)} {layout : PieceLayout}
    (hnew : PieceLayout.new pieceLength files = some layout) {multiFile : Bool}
    {wanted : Option (List Nat)} {disk : Disk F} (hno : disk.outcomes = []) {s₀ s : PieceStore F}
    (hopen : openAt resolve name (layout.withMultiFile multiFile) wanted disk = some s₀)
    (hsep : s₀.SeparateFiles) {ops : List Op} (hfit : ∀ op ∈ ops, op.Fits s₀.layout)
    {outs : List (List UInt8)} (hexec : exec s₀ ops = some (s, outs)) :
    (s.Tidy ∧ s.WithinLimit) ∧
      ((∃ t, exec s₀ (ops.map Op.writeThrough) = some (t, outs)) ∨
        ∃ index data, .write index data ∈ ops ∧ s₀.layout.pieceSegments index = none) ∧
      ∀ u outs', s.call .flushAll = some (u, .ok outs') → ∀ index data,
        lastWritten ops index = some data → u.OnDisk { index, data } := by
  obtain ⟨hs₀, hbare⟩ := openAt_sound hnew hno hopen hsep
  have hs := hs₀.exec hfit hexec
  refine ⟨⟨hs.tidy, hs.within⟩, ?_, fun u out hflush index data hlast => ?_⟩
  · by_cases hsegs : ∃ index data, Op.write index data ∈ ops ∧
        s₀.layout.pieceSegments index = none
    · exact .inr hsegs
    · refine .inl (hs₀.exec_follow hs₀ hbare rfl rfl hfit (fun index data hmem => ?_) hexec)
      refine Option.ne_none_iff_exists'.mp fun hnone => hsegs ⟨index, data, hmem, hnone⟩
  · obtain ⟨hu, -⟩ := hs.call (show Op.flushAll.Fits s.layout from trivial) hflush
    obtain ⟨⟨v, r⟩, hcall, heq⟩ := Option.map_eq_some_iff.mp hflush
    obtain ⟨rfl, hout⟩ := Prod.mk.inj heq
    have hr : r = .ok () := by
      cases r with
      | error e => cases hout
      | ok _ => rfl
    have hcache := (flushAll_spec hs.tidy hcall).2.2 hr
    refine hu.holds.onDisk index data hlast fun c hc => ?_
    rw [show v.writeCache = [] from hcache] at hc
    cases hc

/-- One file of four bytes. -/
def oneFile : List (List String × UInt64) := [(["a"], 4)]

/-- A piece is cached and a block of it read. -/
def cachedRead : List Op := [.setLimit 100, .write 0 [1, 2, 3, 4], .readBlock 0 1 2]

theorem cachedRead_writeThrough : ∃ s₀ s : PieceStore (List String),
    exec s₀ cachedRead = some (s, [[], [], [2, 3]]) ∧ (s.Tidy ∧ s.WithinLimit) ∧
      ∃ t, exec s₀ (cachedRead.map Op.writeThrough) = some (t, [[], [], [2, 3]]) := by
  obtain ⟨layout, hlayout⟩ : ∃ l, PieceLayout.new 4 oneFile = some l := ⟨_, rfl⟩
  obtain ⟨s₀, hopen⟩ : ∃ s : PieceStore (List String),
      openAt id "a" (layout.withMultiFile false) none { content := fun _ => [], outcomes := [] } =
        some s := by
    obtain rfl := Option.some.inj hlayout
    exact ⟨_, rfl⟩
  obtain ⟨s, hexec⟩ : ∃ s, exec s₀ cachedRead = some (s, [[], [], [2, 3]]) := by
    obtain rfl := Option.some.inj hlayout
    obtain rfl := Option.some.inj hopen
    exact ⟨_, rfl⟩
  have hsep : s₀.SeparateFiles := by
    obtain rfl := Option.some.inj hlayout
    obtain rfl := Option.some.inj hopen
    intro j k f g file hj hk _ _ _ _
    have hj' := (List.getElem?_eq_some_iff.mp hj).1
    have hk' := (List.getElem?_eq_some_iff.mp hk).1
    exact (Nat.lt_one_iff.mp hj').trans (Nat.lt_one_iff.mp hk').symm
  have hfit : ∀ op ∈ cachedRead, op.Fits s₀.layout := by
    obtain rfl := Option.some.inj hlayout
    obtain rfl := Option.some.inj hopen
    intro op hop
    rcases List.mem_cons.mp hop with rfl | hop
    · trivial
    rcases List.mem_cons.mp hop with rfl | hop
    · exact ⟨4, rfl, rfl⟩
    · obtain rfl := List.mem_singleton.mp hop
      exact ⟨4, rfl, by decide⟩
  obtain ⟨haccount, hthrough, -⟩ := exec_writeThrough hlayout rfl hopen hsep hfit hexec
  refine ⟨s₀, s, hexec, haccount, hthrough.resolve_right ?_⟩
  rintro ⟨index, data, hmem, hnone⟩
  obtain rfl := Option.some.inj hlayout
  obtain rfl := Option.some.inj hopen
  rcases List.mem_cons.mp hmem with heq | hmem
  · cases heq
  rcases List.mem_cons.mp hmem with heq | hmem
  · obtain ⟨rfl, -⟩ := Op.write.inj heq
    cases hnone
  · cases List.mem_singleton.mp hmem

/-- Two entries of four bytes under one path. -/
def samePath : List (List String × UInt64) := [(["a"], 4), (["a"], 4)]

/-- Both pieces are written to the cache, then the first is read. -/
def overlaidRead : List Op :=
  [.setLimit 100, .write 0 [1, 1, 1, 1], .write 1 [2, 2, 2, 2], .readPiece 0]

/-- Where two open files are one, the cache gives a piece that the disk would no longer have. -/
theorem overlaidRead_not_writeThrough : ∃ (layout : PieceLayout) (s₀ : PieceStore (List String)),
    PieceLayout.new 4 samePath = some layout ∧
    openAt id "t" (layout.withMultiFile true) none { content := fun _ => [], outcomes := [] } =
      some s₀ ∧
    (∃ s, exec s₀ overlaidRead = some (s, [[], [], [], [1, 1, 1, 1]])) ∧
    ∃ t, exec s₀ (overlaidRead.map Op.writeThrough) = some (t, [[], [], [], [2, 2, 2, 2]]) :=
  ⟨_, _, rfl, rfl, ⟨_, rfl⟩, ⟨_, rfl⟩⟩

end PieceStore

end XferRust.Storage
