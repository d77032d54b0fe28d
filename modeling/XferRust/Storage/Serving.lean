import XferRust.Lib.StepRun
import XferRust.Storage.WriteBack

/-! # Serving what was accepted

A piece whose bit `accept_piece` has set is served to other peers, block by block, from the cache
or from the disk.  The runs here are those of the calls that an engine makes on its store, under
every pattern of failing writes.

What has no handle is skipped on the way in and on the way out.  So a block that ends in skipped
files comes out short, as the source says; but a skipped part in front of one that is read moves
what follows to the place of another byte.
-/
namespace XferRust.Storage
open Tiling (total)
open PieceLayout (Placed)

/-! ## Bits -/

theorem mod_eight_lt (i : UInt32) : (i % 8).toNat < 8 := by
  rw [UInt32.toNat_mod]
  exact Nat.mod_lt _ (by decide)

theorem bitMask_ne_zero (i : UInt32) : bitMask i ≠ 0 := by
  have hall : ∀ r < 8, (0x80 : UInt8) >>> UInt8.ofNat r ≠ 0 := by decide
  exact hall _ (mod_eight_lt i)

theorem bitMask_and {i j : UInt32} (h : i % 8 ≠ j % 8) : bitMask i &&& bitMask j = 0 := by
  have hall : ∀ r < 8, ∀ q < 8, r ≠ q →
      (0x80 : UInt8) >>> UInt8.ofNat r &&& (0x80 : UInt8) >>> UInt8.ofNat q = 0 := by decide
  exact hall _ (mod_eight_lt i) _ (mod_eight_lt j) fun heq => h (UInt32.toNat_inj.mp heq)

theorem bitMask_and_not {i j : UInt32} (h : bitMask i &&& bitMask j = 0) :
    bitMask j &&& ~~~bitMask i = bitMask j := by
  have hall : ∀ r < 8, ∀ q < 8, (0x80 : UInt8) >>> UInt8.ofNat r &&&
      (0x80 : UInt8) >>> UInt8.ofNat q = 0 → (0x80 : UInt8) >>> UInt8.ofNat q &&&
      ~~~((0x80 : UInt8) >>> UInt8.ofNat r) = (0x80 : UInt8) >>> UInt8.ofNat q := by decide
  exact hall _ (mod_eight_lt i) _ (mod_eight_lt j) h

/-- Two bits of one byte have different places in it. -/
theorem mod_ne_of_div_eq {i j : UInt32} (hdiv : (i / 8).toNat = (j / 8).toNat) (hij : i ≠ j) :
    i % 8 ≠ j % 8 := by
  intro hmod
  refine hij (UInt32.toNat_inj.mp ?_)
  have hm := congrArg UInt32.toNat hmod
  rw [UInt32.toNat_div, UInt32.toNat_div] at hdiv
  rw [UInt32.toNat_mod, UInt32.toNat_mod] at hm
  change i.toNat / 8 = j.toNat / 8 at hdiv
  change i.toNat % 8 = j.toNat % 8 at hm
  omega

namespace PieceMap

variable {m : PieceMap} {i j : UInt32}

theorem hasBit_set (hi : i < m.count) :
    hasBit (m.set i).bits j = (decide (i = j) || hasBit m.bits j) := by
  rw [set, if_pos hi]
  show hasBit (m.bits.modify _ _) j = _
  unfold hasBit
  rw [List.getElem?_modify]
  by_cases hij : i = j
  · subst hij
    have hlt : (i / 8).toNat < m.bits.length := by
      have := UInt32.lt_iff_toNat_lt.mp hi
      rw [m.size, UInt32.toNat_div]
      show i.toNat / 8 < _
      omega
    have hbit : ∀ byte : UInt8, (byte ||| bitMask i) &&& bitMask i ≠ 0 := by
      intro byte hzero
      rw [Word.or_and_distrib, UInt8.and_self, UInt8.or_eq_zero_iff] at hzero
      exact bitMask_ne_zero i hzero.2
    rw [List.getElem?_eq_getElem hlt, decide_eq_true rfl, Bool.true_or]
    simp only [Option.map_eq_map, Option.map_some, if_true]
    exact bne_iff_ne.mpr (hbit _)
  · rw [decide_eq_false hij, Bool.false_or]
    cases m.bits[(j / 8).toNat]? with
    | none => rfl
    | some byte =>
      simp only [Option.map_eq_map, Option.map_some]
      split
      · rename_i hdiv
        rw [Word.or_and_distrib, bitMask_and (mod_ne_of_div_eq hdiv hij), UInt8.or_zero]
      · rfl

theorem isSet_set_of_lt (hi : i < m.count) : (m.set i).isSet j = (decide (i = j) || m.isSet j) := by
  unfold isSet
  rw [m.set_count]
  split
  · rename_i hj
    have hne : i ≠ j := by
      rintro rfl
      exact UInt32.not_le.mpr hi hj
    rw [decide_eq_false hne]
    rfl
  · exact hasBit_set hi

theorem isSet_new (count i : UInt32) : (new count).isSet i = false := by
  unfold isSet
  split
  · rfl
  · show hasBit (List.replicate _ 0) i = false
    unfold hasBit
    rw [List.getElem?_replicate]
    split
    · rfl
    · rename_i byte hbyte
      split at hbyte
      · rw [← Option.some.inj hbyte, UInt8.zero_and]
        rfl
      · cases hbyte

theorem isSet_set (h : m.isSet j = true) : (m.set i).isSet j = true := by
  by_cases hi : i < m.count
  · rw [isSet_set_of_lt hi, h, Bool.or_true]
  · rw [set, if_neg hi]
    exact h

theorem isSet_setFromBitfield (bf : List UInt8) (h : m.isSet j = true) :
    (m.setFromBitfield bf).isSet j = true := by
  unfold setFromBitfield
  induction List.range (8 * bf.length) generalizing m with
  | nil => exact h
  | cons idx rest ih =>
    rw [List.foldl_cons]
    refine ih ?_
    split
    · exact isSet_set h
    · exact h

theorem lt_count (h : m.isSet i = true) : i < m.count := by
  unfold isSet at h
  split at h
  · cases h
  · rename_i hi
    exact UInt32.not_le.mp hi

end PieceMap

/-! ## Where bytes lie, and blocks -/

variable {F : Type}

namespace PieceStore

/-- A layout as it is built. -/
structure Sited (s : PieceStore F) : Prop where
  placed : Placed 0 s.layout.files
  size : s.layout.size < 18446744073709551616
  handles : s.files.length = s.layout.files.length

variable {s : PieceStore F}

theorem Sited.of_same {s' : PieceStore F} (h : s.Sited) (hlayout : s'.layout = s.layout)
    (hfiles : s'.files = s.files) : s'.Sited :=
  ⟨hlayout ▸ h.placed, hlayout ▸ h.size, hlayout ▸ hfiles ▸ h.handles⟩

/-- Where byte number `g` of all bytes lies, when its file is open. -/
def locate (s : PieceStore F) (g : Nat) : Option (F × Nat) :=
  Storage.locate s.files 0 s.layout.files g

/-- The number of the first byte of a piece. -/
def pieceStart (s : PieceStore F) (index : UInt32) : Nat :=
  index.toNat * s.layout.pieceLength.toNat

/-- Byte number `g` belongs to the piece and at this position. -/
def Belongs (s : PieceStore F) (index : UInt32) (file : F) (p g : Nat) : Prop :=
  s.locate g = some (file, p) ∧ s.pieceStart index ≤ g ∧
    g < s.pieceStart index + s.layout.pieceLength.toNat

variable {index : UInt32}

theorem Sited.belongs_lt (h : s.Sited) {file : F} {p g : Nat} (hg : s.Belongs index file p g) :
    g < s.pieceStart index + s.layout.pieceSize index := by
  have hlt : 0 ≤ g ∧ g < 0 + s.layout.size := locate_lt h.placed hg.1
  have hps : s.pieceStart index ≤ g := hg.2.1
  have hpe := hg.2.2
  unfold PieceLayout.pieceSize
  unfold pieceStart at hps hpe ⊢
  omega

/-- What `read_block` returns of a block, when byte `g` of all bytes is `v g`. -/
def blockBytes (s : PieceStore F) (v : Nat → UInt8) (index start length : UInt32) : List UInt8 :=
  openBytes s.files 0 s.layout.files v (s.pieceStart index + start.toNat)
    (s.pieceStart index + start.toNat + length.toNat)

/-- The byte of a piece with number `g` of all bytes. -/
def byteOf (s : PieceStore F) (index : UInt32) (data : List UInt8) (g : Nat) : UInt8 :=
  data.getD (g - s.pieceStart index) 0

variable {length start : UInt32}

/-- The arithmetic of `read_block` for a block within its piece. -/
theorem Sited.block_span (h : s.Sited) (hstart : s.pieceStart index ≤ s.layout.size)
    (hin : start.toNat + length.toNat ≤ s.layout.pieceSize index) :
    ∃ ps bs be : UInt64, ps.toNat = s.pieceStart index ∧
      bs.toNat = s.pieceStart index + start.toNat ∧
      be.toNat = s.pieceStart index + start.toNat + length.toNat ∧
      s.readBlock index start length =
        match s.cacheGet index with
        | some cached => (cachedBlock s.files cached ps bs be 0 s.layout.files).map .ok
        | none => diskBlock s.files s.disk.content bs be 0 s.layout.files := by
  have hsize := h.size
  have hle : s.layout.pieceSize index ≤ s.layout.size - s.pieceStart index := by
    unfold PieceLayout.pieceSize pieceStart
    omega
  obtain ⟨ps, hmul, hps⟩ := @Checked.exists_mul index.toUInt64 s.layout.pieceLength
    (show s.pieceStart index < _ by omega)
  replace hps : ps.toNat = s.pieceStart index := hps
  obtain ⟨bs, hadd, hbs⟩ := @Checked.exists_add ps start.toUInt64
    (show ps.toNat + start.toNat < _ by omega)
  replace hbs : bs.toNat = ps.toNat + start.toNat := hbs
  obtain ⟨be, hadd', hbe⟩ := @Checked.exists_add bs length.toUInt64
    (show bs.toNat + length.toNat < _ by omega)
  replace hbe : be.toNat = bs.toNat + length.toNat := hbe
  refine ⟨ps, bs, be, hps, by omega, by omega, ?_⟩
  cases hget : s.cacheGet index with
  | none => simp only [readBlock, hmul, hadd, hadd', hget, Option.bind_eq_bind, Option.bind_some]
  | some cached =>
    simp only [readBlock, hmul, hadd, hadd', hget, Option.bind_eq_bind, Option.bind_some]

/-- **A block of a cached piece.** -/
theorem Sited.readBlock_cached (h : s.Sited) (hstart : s.pieceStart index ≤ s.layout.size)
    (hin : start.toNat + length.toNat ≤ s.layout.pieceSize index) {data : List UInt8}
    (hcached : s.cacheGet index = some data) (hlen : data.length = s.layout.pieceSize index) :
    s.readBlock index start length =
      some (.ok (s.blockBytes (s.byteOf index data) index start length)) := by
  obtain ⟨ps, bs, be, hps, hbs, hbe, hread⟩ := h.block_span hstart hin
  rw [hread, hcached]
  dsimp only
  rw [cachedBlock_eq (by omega) (by omega) (by omega) (by rw [Nat.zero_add, h.handles]) h.placed
    (by rw [Nat.zero_add]; exact h.size), hps, hbs, hbe, Nat.max_eq_left (Nat.zero_le _)]
  rfl

/-- **A block of a piece on the disk.** -/
theorem Sited.readBlock_disk (h : s.Sited) (hstart : s.pieceStart index ≤ s.layout.size)
    (hin : start.toNat + length.toNat ≤ s.layout.pieceSize index)
    (hcached : s.cacheGet index = none) {v : Nat → UInt8}
    (hv : ∀ file p g, s.locate g = some (file, p) → s.pieceStart index + start.toNat ≤ g →
      g < s.pieceStart index + start.toNat + length.toNat →
      (s.disk.content file)[p]? = some (v g)) :
    s.readBlock index start length = some (.ok (s.blockBytes v index start length)) := by
  obtain ⟨ps, bs, be, hps, hbs, hbe, hread⟩ := h.block_span hstart hin
  obtain ⟨segs, hsegs⟩ := @PieceLayout.exists_segmentsFrom bs be (by omega) s.layout.files 0 0
    h.placed (by rw [Nat.zero_add]; exact h.size)
  rw [hread, hcached]
  dsimp only
  rw [diskBlock_eq hsegs, readSegments_eq (by rw [Nat.zero_add, h.handles]) h.placed
    (fun file p g hg => ?_) hsegs, hbs, hbe, Nat.max_eq_left (Nat.zero_le _)]
  · rfl
  · obtain ⟨hloc, hlo, hhi⟩ := (covers_iff h.placed).mp hg
    exact hv file p g hloc (by omega) (by omega)

/-! ## The calls of an engine -/

end PieceStore

/-- A store, with the pieces whose bit `accept_piece` has set and the data it took. -/
structure Seeder (F : Type) where
  store : PieceStore F
  accepted : List (UInt32 × List UInt8)

inductive EngineCall where
  /-- `accept_piece`. -/
  | accept (index : UInt32) (data : List UInt8)
  /-- `set_write_cache_limit`. -/
  | setLimit (bytes : UInt64)
  | flushAll
  /-- `set_bitfield`: what was restored, or found on the disk. -/
  | setBitfield (bf : List UInt8)

section
variable [DecidableEq F] {Hash : Type} [DecidableEq Hash] (sha1 : List UInt8 → Hash)
  (hashes : UInt32 → Hash)

namespace PieceStore

/-- `accept_piece` of the engine.  What it does to the store it does under one lock; `hashes` is
the list of the torrent. -/
def acceptPiece (s : PieceStore F) (index : UInt32) (data : List UInt8) :
    Option (PieceStore F × Bool) :=
  if s.map.isSet index then some (s, false)
  else if sha1 data ≠ hashes index then some (s, false)
  else
    match s.writePiece index data with
    | none => none
    | some (s, .ok ()) => some (s.markDone index, true)
    | some (s, .error _) => some (s, false)

end PieceStore

namespace Seeder

/-- One call, with the outcomes of the writes in it.  The data of a piece is as long as the piece:
it comes from a buffer of that length. -/
def step (s : Seeder F) (e : EngineCall × List Outcome) : Option (Seeder F) :=
  let store := { s.store with disk := { s.store.disk with outcomes := e.2 } }
  match e.1 with
  | .accept index data =>
    if (store.layout.pieceLen index).map UInt64.toNat ≠ some data.length then none
    else (store.acceptPiece sha1 hashes index data).map fun r =>
      { store := r.1
        accepted := if r.2 && r.1.map.isSet index then (index, data) :: s.accepted
          else s.accepted }
  | .setLimit bytes => (store.setWriteCacheLimit bytes).map fun r => { s with store := r.1 }
  | .flushAll => store.flushAll.map fun r => { s with store := r.1 }
  | .setBitfield bf => some { s with store := store.setBitfield bf }

end Seeder

/-- No two of the pieces that come have the same right hash and differ. -/
def NoCollision (es : List (EngineCall × List Outcome)) : Prop :=
  ∀ index data data' os os', (.accept index data, os) ∈ es → (.accept index data', os') ∈ es →
    sha1 data = hashes index → sha1 data' = hashes index → data = data'

/-- A store just opened, over files with this content. -/
def Seeder.start (s : PieceStore F) (content : F → List UInt8) : Seeder F :=
  { store := { s with disk := { content, outcomes := [] } }, accepted := [] }

/-- In every run from the store, a block of an accepted piece is served with the beginning of the
bytes that were accepted there. -/
def Serves (s : PieceStore F) : Prop :=
  ∀ (hashes : UInt32 → Hash) (content : F → List UInt8) (es : List (EngineCall × List Outcome))
    (t : Seeder F), NoCollision sha1 hashes es →
    StepRun.run (Seeder.step sha1 hashes) (.start s content) es = some t →
    ∀ index data, (index, data) ∈ t.accepted → ∀ start length : UInt32,
      start.toNat + length.toNat ≤ s.layout.pieceSize index →
      ∃ out, t.store.readBlock index start length = some (.ok out) ∧
        out <+: (data.drop start.toNat).take length.toNat

end

namespace PieceStore

/-- A block within a piece. -/
def IsBlock (s : PieceStore F) (index start length : UInt32) : Prop :=
  index < s.map.count ∧ start.toNat + length.toNat ≤ s.layout.pieceSize index

/-- No part of a block that lies in an open file comes after one that lies in none. -/
def Contiguous (s : PieceStore F) (index start length : UInt32) : Prop :=
  ∀ g h, s.pieceStart index + start.toNat ≤ g → g < h →
    h < s.pieceStart index + start.toNat + length.toNat →
    (s.locate h).isSome = true → (s.locate g).isSome = true

/-- No byte of a block shares its place in an open file with another byte of a piece. -/
def Unshared (s : PieceStore F) (index start length : UInt32) : Prop :=
  ∀ file p g, s.locate g = some (file, p) → s.pieceStart index + start.toNat ≤ g →
    g < s.pieceStart index + start.toNat + length.toNat →
    ∀ j h, (s.layout.pieceSegments j).isSome = true → s.Belongs j file p h → h = g

/-- Every block can be served: what is skipped is skipped at its end, and what is not is its own;
the latter counts for pieces that can go to the disk. -/
def Servable (s : PieceStore F) : Prop :=
  ∀ index start length, s.IsBlock index start length → s.Contiguous index start length ∧
    ((s.layout.pieceSegments index).isSome = true → s.Unshared index start length)

/-! ## What the disk keeps -/

/-- What of the piece is its own in the files is there. -/
def OnFile (s : PieceStore F) (index : UInt32) (data : List UInt8) : Prop :=
  ∀ file p g, s.Belongs index file p g →
    (∀ j h, (s.layout.pieceSegments j).isSome = true → s.Belongs j file p h → h = g) →
    (s.disk.content file)[p]? = some (s.byteOf index data g)

/-- The writing of a piece touches what belongs to the piece. -/
def Lands (s : PieceStore F) (index : UInt32) (data : List UInt8) (disk : Disk F)
    (done : Prop) : Prop :=
  Overlay (s.Belongs index) (s.pieceStart index) data s.disk.content disk.content done

variable {s : PieceStore F}

theorem same_piece {i j : UInt32} {file file' : F} {p p' g : Nat} (hi : s.Belongs i file p g)
    (hj : s.Belongs j file' p' g) : i = j := by
  obtain ⟨-, hlo, hhi⟩ := hi
  obtain ⟨-, hlo', hhi'⟩ := hj
  unfold pieceStart at hlo hhi hlo' hhi'
  have hpl : 0 < s.layout.pieceLength.toNat := by omega
  have hdiv : ∀ n : Nat, n * s.layout.pieceLength.toNat ≤ g →
      g < n * s.layout.pieceLength.toNat + s.layout.pieceLength.toNat →
      g / s.layout.pieceLength.toNat = n := fun n h h' =>
    Nat.div_eq_of_lt_le h (by rw [Nat.succ_mul]; exact h')
  exact UInt32.toNat_inj.mp ((hdiv _ hlo hhi).symm.trans (hdiv _ hlo' hhi'))

variable {data : List UInt8}
variable {disk : Disk F} {taken : List (UInt32 × List UInt8)}

/-- The writing of another piece leaves what is a piece's own. -/
theorem OnFile.other {i j : UInt32} {d : List UInt8} {done : Prop} (h : s.OnFile i d)
    (hw : s.Lands j data disk done) (hij : i ≠ j)
    (hsegs : (s.layout.pieceSegments j).isSome = true) : OnFile { s with disk } i d := by
  intro file p g hg hown
  refine hw.stays (fun g' hg' => ?_) (h file p g hg hown)
  obtain rfl := hown j g' hsegs hg'
  exact hij (same_piece hg hg')

variable {index : UInt32}

/-- A piece that is written to its end has on the disk what is its own. -/
theorem Lands.onFile {done : Prop} (hw : s.Lands index data disk done) (hdone : done)
    (hsegs : (s.layout.pieceSegments index).isSome = true) : OnFile { s with disk } index data := by
  intro file p g hg hown
  obtain ⟨g', b, -, hg', hb, hget⟩ := hw.last hdone file p g hg
  obtain rfl := hown index g' hsegs hg'
  rw [show (byteOf { s with disk } index data g') = b by
    show data.getD (g' - s.pieceStart index) 0 = b
    rw [List.getD_eq_getElem?_getD, hb, Option.getD_some]]
  exact hget

variable [DecidableEq F]

/-- **A piece goes to the disk**, to its end when nothing fails. -/
theorem Sited.direct (h : s.Sited) (hlen : data.length = s.layout.pieceSize index)
    (hsegs : (s.layout.pieceSegments index).isSome = true) :
    ∃ disk r, (s.disk.outcomes = [] → r = .ok () ∧ disk.outcomes = []) ∧
      s.Lands index data disk (r = .ok ()) ∧
      ∀ u : PieceStore F, u.layout = s.layout → u.files = s.files → u.disk = s.disk →
        u.writePieceDirect index data = some ({ u with disk }, r) := by
  obtain ⟨segs, hsegs⟩ := Option.isSome_iff_exists.mp hsegs
  obtain ⟨ps, pe, hspan, hps, hpe, -⟩ := PieceLayout.pieceSegments_eq_some hsegs
  have hfit : pe.toNat - ps.toNat ≤ data.length := by
    rw [hlen, hps, hpe]
    unfold PieceLayout.pieceSize
    omega
  obtain ⟨disk, r, hwrite, hok, hover, -⟩ := writeSegments_overlay hfit
    (by rw [Nat.zero_add, h.handles]) h.placed hspan s.disk
  have hzero : reached ps.toNat pe.toNat 0 = 0 := by
    unfold reached
    omega
  rw [hzero] at hwrite
  have hiff : Covers s.files 0 s.layout.files ps.toNat pe.toNat = s.Belongs index := by
    funext file p g
    rw [covers_iff h.placed]
    refine propext ⟨fun ⟨hloc, hlo, hhi⟩ => ⟨hloc, ?_, ?_⟩, fun ⟨hloc, hlo, hhi⟩ =>
      ⟨hloc, ?_, ?_⟩⟩
    · unfold pieceStart
      omega
    · unfold pieceStart
      omega
    · unfold pieceStart at hlo
      omega
    · have hlt : 0 ≤ g ∧ g < 0 + s.layout.size := locate_lt h.placed hloc
      unfold pieceStart at hhi
      omega
  rw [hiff, hps] at hover
  refine ⟨disk, r, hok, hover, fun u hlayout hfiles hdisk => ?_⟩
  simp only [writePieceDirect, hlayout, hfiles, hdisk, hsegs, hwrite, Option.bind_eq_bind,
    Option.bind_some]

theorem isSome_of_direct {r : PieceStore F × Except IoError Unit}
    (h : s.writePieceDirect index data = some r) :
    (s.layout.pieceSegments index).isSome = true := by
  obtain ⟨segs, hsegs⟩ := segments_of_direct h
  rw [hsegs]
  rfl

variable {s' : PieceStore F} {r : Except IoError Unit}

/-- **Rule for the loop over the cache.**  What the writing of the oldest entry keeps, and its
leaving when it was written to its end, the loop keeps. -/
theorem drain_rule {I : List CachedPiece → (F → List UInt8) → Prop} {more : Nat → Bool}
    {cache : List CachedPiece} (hs : s.Sited)
    (hfit : ∀ c ∈ cache, c.data.length = s.layout.pieceSize c.index)
    (hwrite : ∀ oldest rest content, ∀ disk : Disk F, ∀ done, I (oldest :: rest) content →
      (s.layout.pieceSegments oldest.index).isSome = true →
      Lands { s with disk := { content, outcomes := [] } } oldest.index oldest.data disk done →
      I (oldest :: rest) disk.content ∧ (done → I rest disk.content)) (h : I cache s.disk.content)
    (hd : drain more cache s = some (s', r)) : I s'.writeCache s'.disk.content := by
  induction cache generalizing s with
  | nil =>
    obtain ⟨rfl, -⟩ := Prod.mk.inj (Option.some.inj hd)
    exact h
  | cons oldest rest ih =>
    rw [drain] at hd
    split at hd
    · dsimp only at hd
      have hsegs : (s.layout.pieceSegments oldest.index).isSome = true := by
        split at hd
        · cases hd
        · rename_i hwrite
          exact isSome_of_direct (s := { s with
            writeCacheBytes := s.writeCacheBytes - oldest.data.length }) hwrite
        · rename_i hwrite
          exact isSome_of_direct (s := { s with
            writeCacheBytes := s.writeCacheBytes - oldest.data.length }) hwrite
      obtain ⟨disk, r₁, -, hlands, hdirect⟩ := hs.direct (hfit oldest List.mem_cons_self) hsegs
      rw [hdirect { s with writeCacheBytes := s.writeCacheBytes - oldest.data.length } rfl rfl
        rfl] at hd
      obtain ⟨hkeep, hleave⟩ := hwrite oldest rest s.disk.content disk _ h hsegs hlands
      cases r₁ with
      | error e =>
        obtain ⟨rfl, -⟩ := Prod.mk.inj (Option.some.inj hd)
        exact hkeep
      | ok _ =>
        exact ih (s := { s with
          writeCacheBytes := s.writeCacheBytes - oldest.data.length, disk })
          ⟨hs.placed, hs.size, hs.handles⟩ (fun c hc => hfit c (List.mem_cons_of_mem _ hc))
          (fun oldest rest content disk done => hwrite oldest rest content disk done)
          (hleave rfl) hd
    · obtain ⟨rfl, -⟩ := Prod.mk.inj (Option.some.inj hd)
      exact h

/-- `write_piece` writes to the disk, or puts the piece behind the entries of the others and
then makes room. -/
theorem writePiece_cases (hs : s.Sited) (ht : s.Tidy)
    (hlen : data.length = s.layout.pieceSize index)
    (hcall : s.writePiece index data = some (s', r)) :
    (∃ disk, s' = { s with disk } ∧ (s.layout.pieceSegments index).isSome = true ∧
      s.Lands index data disk (r = .ok ())) ∨
    ∃ cache bytes more, (∀ c, c ∈ cache ↔ c ∈ s.writeCache ∧ c.index ≠ index) ∧
      drain more (cache ++ [CachedPiece.mk index data])
        { s with writeCache := cache ++ [{ index, data }], writeCacheBytes := bytes } =
          some (s', r) := by
  unfold writePiece at hcall
  split at hcall
  · have hsegs := isSome_of_direct hcall
    obtain ⟨disk, r₁, -, hlands, hdirect⟩ := hs.direct hlen hsegs
    rw [hdirect s rfl rfl rfl] at hcall
    obtain ⟨rfl, rfl⟩ := Prod.mk.inj (Option.some.inj hcall)
    exact .inl ⟨disk, rfl, hsegs, hlands⟩
  · obtain ⟨-, hmem, cache, bytes, heq⟩ := dropEntry_spec ht index
    dsimp only at hcall
    rw [heq] at hcall hmem
    exact .inr ⟨cache, bytes + data.length, fun n => n > s.cacheLimit.toNat, hmem, hcall⟩

/-! ## What a run keeps -/

/-- The entries of the cache are the pieces, which are `T`; and so is what was accepted, which is
in the cache or in the files. -/
structure Kept (T : UInt32 → List UInt8) (taken : List (UInt32 × List UInt8))
    (s : PieceStore F) : Prop where
  cached : ∀ c ∈ s.writeCache, c.data = T c.index ∧ c.data.length = s.layout.pieceSize c.index
  accepted : ∀ a ∈ taken, a.2 = T a.1 ∧ a.2.length = s.layout.pieceSize a.1
  onFile : ∀ a ∈ taken, (∀ c ∈ s.writeCache, c.index ≠ a.1) →
    (s.layout.pieceSegments a.1).isSome = true ∧ s.OnFile a.1 a.2

variable {T : UInt32 → List UInt8}

omit [DecidableEq F] in
/-- Nothing else of a store counts. -/
theorem Kept.congr {accepted : List (UInt32 × List UInt8)} (h : Kept T accepted s)
    (hlayout : s'.layout = s.layout) (hfiles : s'.files = s.files)
    (hdisk : s'.disk.content = s.disk.content) (hcache : s'.writeCache = s.writeCache) :
    Kept T accepted s' := by
  obtain ⟨layout, files, ⟨content, outcomes⟩, map, cache, bytes, limit⟩ := s
  obtain ⟨layout', files', ⟨content', outcomes'⟩, map', cache', bytes', limit'⟩ := s'
  subst hlayout hfiles hdisk hcache
  exact ⟨h.cached, h.accepted, h.onFile⟩

theorem drain_kept {accepted : List (UInt32 × List UInt8)} {more : Nat → Bool}
    {cache : List CachedPiece} (hs : s.Sited) (h : Kept T accepted { s with writeCache := cache })
    (hd : drain more cache s = some (s', r)) : Kept T accepted s' := by
  obtain ⟨hshape, -⟩ := drain_spec hd
  refine Kept.congr (s := { s with writeCache := s'.writeCache, disk := s'.disk }) ?_ hshape.layout
    hshape.files rfl rfl
  refine drain_rule (I := fun cache content =>
    Kept T accepted { s with writeCache := cache, disk := { content, outcomes := [] } }) hs
    (fun c hc => (h.cached c hc).2) (fun oldest rest content disk done hkept hsegs hlands => ?_)
    (h.congr rfl rfl rfl rfl) hd |>.congr rfl rfl rfl rfl
  have hother : ∀ a ∈ accepted, (∀ c ∈ oldest :: rest, c.index ≠ a.1) →
      (s.layout.pieceSegments a.1).isSome = true ∧ OnFile { s with disk } a.1 a.2 := by
    intro a ha hno
    obtain ⟨hsegs', hfile⟩ := hkept.onFile a ha hno
    exact ⟨hsegs', OnFile.other (s := { s with disk := { content, outcomes := [] } }) hfile hlands
      (fun heq => hno oldest List.mem_cons_self heq.symm) hsegs⟩
  refine ⟨⟨hkept.cached, hkept.accepted, hother⟩, fun hdone =>
    ⟨fun c hc => hkept.cached c (List.mem_cons_of_mem _ hc), hkept.accepted, fun a ha hno => ?_⟩⟩
  by_cases hmine : oldest.index = a.1
  · have heq : a.2 = oldest.data := by
      rw [(hkept.accepted a ha).1, (hkept.cached oldest List.mem_cons_self).1, hmine]
    rw [heq, ← hmine]
    exact ⟨hsegs, hlands.onFile hdone hsegs⟩
  · refine hother a ha fun c hc => ?_
    rcases List.mem_cons.mp hc with rfl | hc
    · exact hmine
    · exact hno c hc

omit [DecidableEq F] in
theorem Kept.tail {a : UInt32 × List UInt8} (h : Kept T (a :: taken) s) : Kept T taken s :=
  ⟨h.cached, fun b hb => h.accepted b (List.mem_cons_of_mem _ hb),
    fun b hb => h.onFile b (List.mem_cons_of_mem _ hb)⟩

/-- `write_piece` of a piece that was not accepted before; if it ends well, it may be now. -/
theorem writePiece_kept (hs : s.Sited) (ht : s.Tidy) (h : Kept T taken s)
    (hfresh : ∀ a ∈ taken, a.1 ≠ index) (hlen : (T index).length = s.layout.pieceSize index)
    (hcall : s.writePiece index (T index) = some (s', r)) :
    Kept T taken s' ∧ (r = .ok () → Kept T ((index, T index) :: taken) s') := by
  obtain ⟨disk, rfl, hsegs, hlands⟩ | ⟨cache, bytes, more, hmem, hdrain⟩ :=
    writePiece_cases hs ht hlen hcall
  · have hother : ∀ a ∈ taken, (∀ c ∈ s.writeCache, c.index ≠ a.1) →
        (s.layout.pieceSegments a.1).isSome = true ∧ OnFile { s with disk } a.1 a.2 := by
      intro a ha hno
      obtain ⟨hsegs', hfile⟩ := h.onFile a ha hno
      exact ⟨hsegs', OnFile.other (s := s) hfile hlands (hfresh a ha) hsegs⟩
    refine ⟨⟨h.cached, h.accepted, hother⟩, fun hr => ⟨h.cached, ?_, ?_⟩⟩
    · intro a ha
      rcases List.mem_cons.mp ha with rfl | ha
      · exact ⟨rfl, hlen⟩
      · exact h.accepted a ha
    · intro a ha hno
      rcases List.mem_cons.mp ha with rfl | ha
      · exact ⟨hsegs, hlands.onFile hr hsegs⟩
      · exact hother a ha hno
  · have hpush : Kept T ((index, T index) :: taken)
        { s with
          writeCache := cache ++ [{ index, data := T index }]
          writeCacheBytes := bytes } := by
      refine ⟨fun c hc => ?_, fun a ha => ?_, fun a ha hno => ?_⟩
      · rcases List.mem_append.mp hc with hc | hc
        · exact h.cached c ((hmem c).mp hc).1
        · obtain rfl := List.mem_singleton.mp hc
          exact ⟨rfl, hlen⟩
      · rcases List.mem_cons.mp ha with rfl | ha
        · exact ⟨rfl, hlen⟩
        · exact h.accepted a ha
      · rcases List.mem_cons.mp ha with rfl | ha
        · exact absurd rfl (hno _ (List.mem_append_right _ List.mem_cons_self))
        · refine h.onFile a ha fun c hc hindex => ?_
          refine hno c (List.mem_append_left _ ((hmem c).mpr ⟨hc, ?_⟩)) hindex
          rw [hindex]
          exact hfresh a ha
    have hkept := drain_kept (s := { s with
        writeCache := cache ++ [{ index, data := T index }]
        writeCacheBytes := bytes }) ⟨hs.placed, hs.size, hs.handles⟩ hpush hdrain
    exact ⟨hkept.tail, fun _ => hkept⟩

omit [DecidableEq F] in
theorem sync_content (files : List (Option F)) (d : Disk F) :
    (Disk.sync files d).1.content = d.content := by
  induction files generalizing d with
  | nil => rfl
  | cons slot files ih =>
    cases slot with
    | none => exact ih d
    | some file =>
      rw [Disk.sync]
      split
      · exact ih d
      · exact ih _
      · rfl

theorem flushAll_kept (hs : s.Sited) (h : Kept T taken s) (hcall : s.flushAll = some (s', r)) :
    Kept T taken s' := by
  obtain ⟨⟨u, r₁⟩, hflush, hcall⟩ := Option.bind_eq_some_iff.mp hcall
  have hkept := drain_kept hs h hflush
  cases r₁ with
  | error e =>
    obtain ⟨rfl, -⟩ := Prod.mk.inj (Option.some.inj hcall)
    exact hkept
  | ok _ =>
    obtain ⟨rfl, -⟩ := Prod.mk.inj (Option.some.inj hcall)
    exact hkept.congr rfl rfl (sync_content _ _) rfl

/-- A store that was just opened. -/
structure Opened (s : PieceStore F) : Prop where
  sited : s.Sited
  empty : s.writeCache = []
  bytes : s.writeCacheBytes = 0
  limit : s.cacheLimit = 0
  fresh : ∀ i, s.map.isSet i = false
  starts : ∀ i, i < s.map.count ↔ 0 < s.layout.pieceLength.toNat ∧ s.pieceStart i < s.layout.size

omit [DecidableEq F] in
theorem Opened.tidy (h : s.Opened) : s.Tidy := by
  refine ⟨?_, ?_⟩
  · rw [h.bytes, h.empty]
    rfl
  · rw [h.empty]
    exact List.nodup_nil

omit [DecidableEq F] in
theorem openAt_opened {resolve : List String → F} {name : String} {pieceLength : UInt64}
    {files : List (List String × UInt64)} {layout : PieceLayout}
    (hnew : PieceLayout.new pieceLength files = some layout) {multiFile : Bool}
    {wanted : Option (List Nat)}
    (hopen : openAt resolve name (layout.withMultiFile multiFile) wanted disk = some s) :
    s.Opened := by
  obtain ⟨hlayout, -, hcache, hbytes, hlimit, hfiles⟩ := openAt_spec hopen
  obtain ⟨ls, hplace, hnew⟩ := Option.bind_eq_some_iff.mp hnew
  obtain rfl := Option.some.inj hnew
  obtain ⟨hplaced, -, hlt⟩ := PieceLayout.place_spec hplace
  rw [UInt64.toNat_zero, Nat.zero_add] at hlt
  obtain ⟨count, hcount, hopen⟩ := Option.bind_eq_some_iff.mp hopen
  obtain rfl := Option.some.inj hopen
  refine ⟨⟨hplaced, hlt, hfiles⟩, hcache, hbytes, hlimit, PieceMap.isSet_new count, fun i => ?_⟩
  obtain ⟨total, htotal, hcount⟩ := Option.bind_eq_some_iff.mp hcount
  rw [UInt32.lt_iff_toNat_lt]
  change (if pieceLength = 0 then some 0
    else Checked.toU32 (Checked.divCeil total pieceLength)) = some count at hcount
  show i.toNat < count.toNat ↔ 0 < pieceLength.toNat ∧ i.toNat * pieceLength.toNat < _
  split at hcount
  · rename_i hpl
    rw [← Option.some.inj hcount, hpl]
    exact ⟨fun h => absurd h (Nat.not_lt_zero _), fun h => absurd h.1 (Nat.lt_irrefl _)⟩
  · rename_i hpl
    have hpos : 0 < pieceLength.toNat :=
      Nat.pos_of_ne_zero fun hzero => hpl (UInt64.toNat_inj.mp hzero)
    rw [Checked.toU32_eq_some.mp hcount, Checked.toNat_divCeil hpos, Checked.lt_ceilDiv_iff hpos,
      PieceLayout.totalLength_eq_some.mp htotal]
    exact ⟨fun h => ⟨hpos, h⟩, And.right⟩

end PieceStore

namespace Seeder
variable [DecidableEq F] {Hash : Type} [DecidableEq Hash] {sha1 : List UInt8 → Hash}
  {hashes : UInt32 → Hash}

/-- What holds in every state of a run from the store `s₀`, when every piece that comes with the
right hash is the one of `T`. -/
structure Faithful (T : UInt32 → List UInt8) (s₀ : PieceStore F) (t : Seeder F) : Prop where
  shape : PieceStore.SameShape s₀ t.store
  tidy : t.store.Tidy
  kept : PieceStore.Kept T t.accepted t.store
  marked : ∀ a ∈ t.accepted, t.store.map.isSet a.1 = true

variable {T : UInt32 → List UInt8} {s₀ : PieceStore F}

theorem acceptPiece_faithful {s s' : PieceStore F} {taken : List (UInt32 × List UInt8)} {ok : Bool}
    {index : UInt32} {data : List UInt8} (hs₀ : s₀.Sited) (h : Faithful T s₀ ⟨s, taken⟩)
    (hT : sha1 data = hashes index → data = T index) (hlen : data.length = s.layout.pieceSize index)
    (hcall : s.acceptPiece sha1 hashes index data = some (s', ok)) :
    Faithful T s₀
      ⟨s', if ok && s'.map.isSet index then (index, data) :: taken else taken⟩ := by
  unfold PieceStore.acceptPiece at hcall
  split at hcall
  · obtain ⟨rfl, rfl⟩ := Prod.mk.inj (Option.some.inj hcall)
    exact h
  · rename_i hset
    split at hcall
    · obtain ⟨rfl, rfl⟩ := Prod.mk.inj (Option.some.inj hcall)
      exact h
    · rename_i hhash
      obtain rfl := hT (Decidable.not_not.mp hhash)
      have hs : s.Sited := hs₀.of_same h.shape.layout h.shape.files
      have hfresh : ∀ a ∈ taken, a.1 ≠ index := fun a ha heq => hset (heq ▸ h.marked a ha)
      split at hcall
      · cases hcall
      · rename_i u hwrite
        obtain ⟨rfl, rfl⟩ := Prod.mk.inj (Option.some.inj hcall)
        obtain ⟨hcache, -, -⟩ := PieceStore.writePiece_spec h.tidy hwrite
        obtain ⟨hkept, hnow⟩ := PieceStore.writePiece_kept hs h.tidy h.kept hfresh hlen hwrite
        have hmap : u.map = s.map := hcache.map
        have hmark : ∀ a ∈ taken, (u.markDone index).map.isSet a.1 = true := fun a ha =>
          PieceMap.isSet_set (hmap ▸ h.marked a ha)
        have hshape : PieceStore.SameShape s₀ (u.markDone index) :=
          h.shape.trans ⟨hcache.shape.layout, hcache.shape.files,
            (PieceMap.set_count _ _).trans hcache.shape.count⟩
        have htidy : (u.markDone index).Tidy := ⟨hcache.tidy.bytes, hcache.tidy.unique⟩
        rw [Bool.true_and]
        split
        · rename_i hbit
          refine ⟨hshape, htidy, (hnow rfl).congr rfl rfl rfl rfl, fun a ha => ?_⟩
          rcases List.mem_cons.mp ha with rfl | ha
          · exact hbit
          · exact hmark a ha
        · exact ⟨hshape, htidy, hkept.congr rfl rfl rfl rfl, hmark⟩
      · rename_i u e hwrite
        obtain ⟨rfl, rfl⟩ := Prod.mk.inj (Option.some.inj hcall)
        obtain ⟨hcache, -, -⟩ := PieceStore.writePiece_spec h.tidy hwrite
        obtain ⟨hkept, -⟩ := PieceStore.writePiece_kept hs h.tidy h.kept hfresh hlen hwrite
        exact ⟨h.shape.trans hcache.shape, hcache.tidy, hkept, fun a ha =>
          hcache.map ▸ h.marked a ha⟩

/-- A piece that comes with the right hash is the one of `T`. -/
def Verified (sha1 : List UInt8 → Hash) (hashes : UInt32 → Hash) (T : UInt32 → List UInt8)
    (e : EngineCall × List Outcome) : Prop :=
  ∀ index data, e.1 = .accept index data → sha1 data = hashes index → data = T index

theorem step_faithful {t t' : Seeder F} {e : EngineCall × List Outcome} (hs₀ : s₀.Sited)
    (h : Faithful T s₀ t) (hT : Verified sha1 hashes T e) (hstep : step sha1 hashes t e = some t') :
    Faithful T s₀ t' := by
  obtain ⟨call, os⟩ := e
  -- the outcomes of the disk are new
  have h : Faithful T s₀ ⟨{ t.store with disk := { t.store.disk with outcomes := os } },
      t.accepted⟩ :=
    ⟨⟨h.shape.layout, h.shape.files, h.shape.count⟩, ⟨h.tidy.bytes, h.tidy.unique⟩,
      h.kept.congr rfl rfl rfl rfl, h.marked⟩
  have hs := hs₀.of_same h.shape.layout h.shape.files
  cases call with
  | accept index data =>
    dsimp only [step] at hstep
    split at hstep
    · cases hstep
    · rename_i hlen
      obtain ⟨n, hn, hlen⟩ := Option.map_eq_some_iff.mp (Decidable.not_not.mp hlen)
      rw [PieceLayout.pieceLen_eq_some hn] at hlen
      obtain ⟨⟨u, ok⟩, hcall, rfl⟩ := Option.map_eq_some_iff.mp hstep
      exact acceptPiece_faithful hs₀ h (hT index data rfl) hlen.symm hcall
  | setLimit bytes =>
    obtain ⟨⟨u, r⟩, hcall, rfl⟩ := Option.map_eq_some_iff.mp hstep
    obtain ⟨hcache, -⟩ := PieceStore.setWriteCacheLimit_spec h.tidy hcall
    exact ⟨h.shape.trans hcache.shape, hcache.tidy,
      PieceStore.drain_kept (s := { t.store with
        cacheLimit := bytes, disk := { t.store.disk with outcomes := os } })
        ⟨hs.placed, hs.size, hs.handles⟩ (h.kept.congr rfl rfl rfl rfl) hcall,
      fun a ha => hcache.map ▸ h.marked a ha⟩
  | flushAll =>
    obtain ⟨⟨u, r⟩, hcall, rfl⟩ := Option.map_eq_some_iff.mp hstep
    obtain ⟨hcache, -, -⟩ := PieceStore.flushAll_spec h.tidy hcall
    exact ⟨h.shape.trans hcache.shape, hcache.tidy, PieceStore.flushAll_kept hs h.kept hcall,
      fun a ha => hcache.map ▸ h.marked a ha⟩
  | setBitfield bf =>
    obtain rfl := Option.some.inj hstep
    show Faithful T s₀ ⟨PieceStore.setBitfield _ bf, t.accepted⟩
    unfold PieceStore.setBitfield
    split
    · exact ⟨⟨h.shape.layout, h.shape.files,
          (PieceMap.setFromBitfield_count _ _).trans h.shape.count⟩,
        ⟨h.tidy.bytes, h.tidy.unique⟩, h.kept.congr rfl rfl rfl rfl,
        fun a ha => PieceMap.isSet_setFromBitfield bf (h.marked a ha)⟩
    · exact h

theorem run_faithful (h : s₀.Opened) {content : F → List UInt8}
    {es : List (EngineCall × List Outcome)} (hT : ∀ e ∈ es, Verified sha1 hashes T e) {t : Seeder F}
    (hrun : StepRun.run (step sha1 hashes) (.start s₀ content) es = some t) : Faithful T s₀ t := by
  have hstart : Faithful T s₀ (.start s₀ content) := by
    refine ⟨⟨rfl, rfl, rfl⟩, ⟨h.tidy.bytes, h.tidy.unique⟩, ⟨fun c hc => ?_, nofun, nofun⟩, nofun⟩
    rw [show (Seeder.start s₀ content).store.writeCache = [] from h.empty] at hc
    cases hc
  refine StepRun.run_invariant (I := Faithful T s₀)
    (P := fun _ e => Verified sha1 hashes T e) ?_ hstart (StepRun.along_of_forall hT) hrun
  intro s e s' hs he hstep
  exact step_faithful h.sited hs he hstep

omit [DecidableEq Hash] in
/-- Without collisions the pieces of a run are those of one torrent. -/
theorem exists_verified {es : List (EngineCall × List Outcome)}
    (h : NoCollision sha1 hashes es) : ∃ T, ∀ e ∈ es, Verified sha1 hashes T e := by
  have hone : ∀ index, ∃ T, ∀ data os, (EngineCall.accept index data, os) ∈ es →
      sha1 data = hashes index → data = T := by
    intro index
    by_cases hex : ∃ data os, (EngineCall.accept index data, os) ∈ es ∧ sha1 data = hashes index
    · obtain ⟨T, os', he', hhash'⟩ := hex
      exact ⟨T, fun data os he hhash => h index data T os os' he he' hhash hhash'⟩
    · exact ⟨[], fun data os he hhash => absurd ⟨data, os, he, hhash⟩ hex⟩
  obtain ⟨T, hT⟩ := Classical.axiomOfChoice hone
  refine ⟨T, ?_⟩
  rintro ⟨call, os⟩ he index data rfl hhash
  exact hT index data os he hhash

end Seeder

/-! ## What is served -/

/-- What holds downwards picks a beginning of a range. -/
theorem filter_initial {p : Nat → Bool} {a n : Nat}
    (h : ∀ g k, a ≤ g → g < k → k < a + n → p k = true → p g = true) :
    (List.range' a n).filter p <+: List.range' a n := by
  induction n generalizing a with
  | zero => exact List.prefix_refl _
  | succ n ih =>
    rw [List.range'_succ, List.filter_cons]
    split
    · exact List.cons_prefix_cons.mpr ⟨rfl, ih fun g k hlo hlt hhi =>
        h g k (by omega) hlt (by omega)⟩
    · rename_i ha
      rw [List.filter_eq_nil_iff.mpr]
      · exact List.nil_prefix
      · intro k hk hpk
        have := List.mem_range'_1.mp hk
        exact ha (h a k (Nat.le_refl a) (by omega) (by omega) hpk)

namespace PieceStore

/-- **A block without a gap** comes to a beginning of its bytes. -/
theorem Contiguous.prefix {s : PieceStore F} {index start length : UInt32}
    (h : s.Contiguous index start length) {data : List UInt8}
    (hlen : start.toNat + length.toNat ≤ data.length) :
    s.blockBytes (s.byteOf index data) index start length <+:
      (data.drop start.toNat).take length.toNat := by
  have hslice := @slice_eq _ (s.pieceStart index) _ _ hlen
  rw [List.drop_take, Nat.add_sub_cancel_left] at hslice
  rw [hslice, blockBytes, openBytes, Nat.add_sub_cancel_left]
  exact (filter_initial fun g k hlo hlt hhi hk => h g k hlo hlt hhi hk).map _

/-- **Blocks of accepted pieces are served right**, when the torrent and its selection allow it. -/
theorem Servable.serves [DecidableEq F] {Hash : Type} [DecidableEq Hash]
    {sha1 : List UInt8 → Hash} {s : PieceStore F} (h : s.Servable) (ho : s.Opened) :
    Serves sha1 s := by
  have hs := ho.sited
  intro hashes content es t hno hrun index data hacc start length hin
  obtain ⟨T, hT⟩ := Seeder.exists_verified hno
  obtain ⟨hshape, htidy, hkept, hmarked⟩ := Seeder.run_faithful ho hT hrun
  obtain ⟨⟨layout, files, disk, map, cache, bytes, limit⟩, taken⟩ := t
  obtain ⟨hlayout, hfiles, hcount⟩ := hshape
  dsimp only at hlayout hfiles hcount
  subst hlayout hfiles
  have hindex : index < s.map.count := hcount ▸ PieceMap.lt_count (hmarked _ hacc)
  obtain ⟨hcont, hunshared⟩ := h index start length ⟨hindex, hin⟩
  obtain ⟨hdata, hlen⟩ := hkept.accepted _ hacc
  change data = T index at hdata
  change data.length = s.layout.pieceSize index at hlen
  have hstart := Nat.le_of_lt ((ho.starts index).mp hindex).2
  refine ⟨s.blockBytes (s.byteOf index data) index start length, ?_, hcont.prefix (by omega)⟩
  cases hget : cacheGet ⟨s.layout, s.files, disk, map, cache, bytes, limit⟩ index with
  | some cached =>
    obtain ⟨c, hc, rfl, rfl⟩ := cacheGet_some hget
    obtain ⟨hcdata, hclen⟩ := hkept.cached c hc
    rw [hdata, ← hcdata]
    exact Sited.readBlock_cached (s := ⟨s.layout, s.files, disk, map, cache, bytes, limit⟩)
      ⟨hs.placed, hs.size, hs.handles⟩ hstart hin hget hclen
  | none =>
    obtain ⟨hsegs, hfile⟩ := hkept.onFile _ hacc (cacheGet_none hget)
    refine Sited.readBlock_disk (s := ⟨s.layout, s.files, disk, map, cache, bytes, limit⟩)
      ⟨hs.placed, hs.size, hs.handles⟩ hstart hin hget fun file p g hloc hlo hhi => ?_
    refine hfile file p g ⟨hloc, ?_, ?_⟩ fun j k hj hk => ?_
    · exact Nat.le_trans (Nat.le_add_right _ _) hlo
    · show g < s.pieceStart index + s.layout.pieceLength.toNat
      have hle : s.layout.pieceSize index ≤ s.layout.pieceLength.toNat := Nat.min_le_right _ _
      change g < s.pieceStart index + start.toNat + length.toNat at hhi
      omega
    · exact hunshared hsegs file p g hloc hlo hhi j k hj hk

end PieceStore

end XferRust.Storage
