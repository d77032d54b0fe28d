import XferRust.Storage.Serving

/-! # What cannot be served

Where a block has a gap, or a byte shares its place with another one, there are pieces and a run
without any failure after which a block is served with bytes that were not accepted there: from
the cache in the one case, from the disk in the other.
-/
namespace XferRust.Storage
open Tiling (total)

variable {F : Type} [DecidableEq F] {Hash : Type} [DecidableEq Hash] {sha1 : List UInt8 → Hash}
  {hashes : UInt32 → Hash}

namespace Seeder

/-- What comes of a piece that is missing, when it can be written. -/
theorem step_accept {t : Seeder F} (hs : t.store.Sited) {index : UInt32} {data : List UInt8}
    (hindex : index < t.store.map.count) (hstart : t.store.pieceStart index < t.store.layout.size)
    (hlen : data.length = t.store.layout.pieceSize index) (hhash : sha1 data = hashes index)
    (hnew : t.store.map.isSet index = false) {u : PieceStore F}
    (hwrite : PieceStore.writePiece
      { t.store with disk := { t.store.disk with outcomes := [] } } index data = some (u, .ok ()))
    (hmap : u.map = t.store.map) :
    step sha1 hashes t (.accept index data, []) =
      some ⟨u.markDone index, (index, data) :: t.accepted⟩ := by
  obtain ⟨size, hsize⟩ := Checked.exists_toNat hs.size
  have htotal := PieceLayout.totalLength_eq_some.mpr hsize
  have hspan := hs.size
  obtain ⟨n, hn⟩ := @exists_pieceLenIn size t.store.layout.pieceLength index
    (show t.store.pieceStart index < _ by omega)
  rw [← htotal] at hn
  have hguard : (t.store.layout.pieceLen index).map UInt64.toNat = some data.length := by
    rw [show t.store.layout.pieceLen index = some n from hn, Option.map_some,
      PieceLayout.pieceLen_eq_some hn, hlen]
  have hbit : (u.markDone index).map.isSet index = true := by
    show (u.map.set index).isSet index = true
    rw [hmap, PieceMap.isSet_set_of_lt hindex, decide_eq_true rfl, Bool.true_or]
  dsimp only [step]
  rw [if_neg (not_not_intro hguard), PieceStore.acceptPiece]
  dsimp only
  rw [hnew, if_neg Bool.false_ne_true, if_neg (not_not_intro hhash), hwrite]
  dsimp only
  rw [Option.map_some, hbit]
  rfl

/-- A piece that is missing goes to the disk, when the cache is off. -/
theorem accept_direct {t : Seeder F} (hs : t.store.Sited) (hlimit : t.store.cacheLimit = 0)
    {index : UInt32} {data : List UInt8} (hindex : index < t.store.map.count)
    (hstart : t.store.pieceStart index < t.store.layout.size)
    (hsegs : (t.store.layout.pieceSegments index).isSome = true)
    (hlen : data.length = t.store.layout.pieceSize index) (hhash : sha1 data = hashes index)
    (hnew : t.store.map.isSet index = false) :
    ∃ disk, step sha1 hashes t (.accept index data, []) =
        some ⟨{ t.store with disk, map := t.store.map.set index }, (index, data) :: t.accepted⟩ ∧
      t.store.Lands index data disk True := by
  obtain ⟨disk, r, hok, hlands, hdirect⟩ := PieceStore.Sited.direct
    (s := { t.store with disk := { t.store.disk with outcomes := [] } })
    ⟨hs.placed, hs.size, hs.handles⟩ hlen hsegs
  obtain ⟨rfl, -⟩ := hok rfl
  refine ⟨disk, step_accept (u := { t.store with disk }) hs hindex hstart hlen hhash hnew ?_ rfl,
    hlands.outside, hlands.grows, fun _ => hlands.last rfl⟩
  rw [PieceStore.writePiece, hlimit]
  exact hdirect _ rfl rfl rfl

/-- A piece that is missing goes to the cache, when there is room. -/
theorem accept_cached {t : Seeder F} (hs : t.store.Sited) (hempty : t.store.writeCache = [])
    (hbytes : t.store.writeCacheBytes = 0) (hlimit : t.store.cacheLimit = 18446744073709551615)
    {index : UInt32} {data : List UInt8} (hindex : index < t.store.map.count)
    (hstart : t.store.pieceStart index < t.store.layout.size)
    (hlen : data.length = t.store.layout.pieceSize index) (hhash : sha1 data = hashes index)
    (hnew : t.store.map.isSet index = false) :
    ∃ u : PieceStore F, step sha1 hashes t (.accept index data, []) =
        some ⟨u, (index, data) :: t.accepted⟩ ∧
      u.layout = t.store.layout ∧ u.files = t.store.files ∧ u.cacheGet index = some data := by
  have hroom : data.length ≤ (18446744073709551615 : UInt64).toNat := by
    have hsize := hs.size
    have hle : t.store.layout.pieceSize index ≤ t.store.layout.size :=
      Nat.le_trans (Nat.min_le_left _ _) (Nat.sub_le _ _)
    rw [hlen, show (18446744073709551615 : UInt64).toNat = 18446744073709551615 from rfl]
    omega
  refine ⟨_, step_accept (u := { t.store with
      disk := { t.store.disk with outcomes := [] }
      writeCache := [{ index, data }]
      writeCacheBytes := data.length }) hs hindex hstart hlen hhash hnew ?_ rfl, rfl, rfl, ?_⟩
  · have hguard : (decide ((18446744073709551615 : UInt64) = 0) ||
        decide (data.length > (18446744073709551615 : UInt64).toNat)) = false := by
      rw [decide_eq_false (Nat.not_lt.mpr hroom)]
      rfl
    rw [PieceStore.writePiece, hlimit, hguard, if_neg Bool.false_ne_true]
    dsimp only [PieceStore.dropEntry]
    rw [hempty]
    dsimp only [List.find?_nil]
    rw [List.nil_append, hbytes, Nat.zero_add, PieceStore.evictToLimit, PieceStore.drain]
    dsimp only
    rw [hlimit, decide_eq_false (Nat.not_lt.mpr hroom), if_neg Bool.false_ne_true]
  · show (List.find? _ [CachedPiece.mk index data]).map CachedPiece.data = some data
    rw [List.find?_cons, decide_eq_true rfl]
    rfl

omit [DecidableEq Hash] in
/-- Pieces that are those of one torrent do not collide. -/
theorem noCollision_of {es : List (EngineCall × List Outcome)} {T : UInt32 → List UInt8}
    (h : ∀ e ∈ es, ∀ index data, e.1 = .accept index data → data = T index) :
    NoCollision sha1 hashes es := by
  intro index data data' os os' he he' _ _
  rw [h _ he index data rfl, h _ he' index data' rfl]

end Seeder

/-! ## Gaps -/

/-- When what is picked of a range, a one for each, begins the range with zeros for the rest, then
what is picked comes first. -/
theorem picked_first {p : Nat → Bool} {a n : Nat}
    (h : (((List.range' a n).filter p).map fun g => if p g then (1 : UInt8) else 0) <+:
      (List.range' a n).map fun g => if p g then (1 : UInt8) else 0)
    {g k : Nat} (hlo : a ≤ g) (hlt : g < k) (hhi : k < a + n) (hk : p k = true) : p g = true := by
  induction n generalizing a with
  | zero => omega
  | succ n ih =>
    rw [List.range'_succ, List.filter_cons] at h
    split at h
    · rename_i ha
      obtain ⟨-, h⟩ := List.cons_prefix_cons.mp h
      by_cases hag : a = g
      · exact hag ▸ ha
      · exact ih h (by omega) (by omega)
    · -- the first is not picked, and neither is any other
      rename_i ha
      have hmem : k ∈ (List.range' (a + 1) n).filter p :=
        List.mem_filter.mpr ⟨List.mem_range'_1.mpr ⟨by omega, by omega⟩, hk⟩
      cases hpicked : (List.range' (a + 1) n).filter p with
      | nil =>
        rw [hpicked] at hmem
        cases hmem
      | cons x xs =>
        have hx : p x = true :=
          (List.mem_filter.mp (hpicked ▸ List.mem_cons_self : x ∈ List.filter p _)).2
        rw [hpicked, List.map_cons, List.map_cons, if_pos hx, if_neg ha] at h
        exact absurd (List.cons_prefix_cons.mp h).1 (by decide)

namespace PieceStore

/-- The bytes of a piece, when byte `g` of all bytes is `v g`. -/
def dataOf (s : PieceStore F) (v : Nat → UInt8) (index : UInt32) : List UInt8 :=
  (List.range' (s.pieceStart index) (s.layout.pieceSize index)).map v

omit [DecidableEq F] in
theorem length_dataOf (s : PieceStore F) (v : Nat → UInt8) (index : UInt32) :
    (s.dataOf v index).length = s.layout.pieceSize index := by
  rw [dataOf, List.length_map, List.length_range']

variable {s : PieceStore F} {index : UInt32} {g : Nat} {v : Nat → UInt8}

omit [DecidableEq F] in
theorem getElem?_dataOf (hlo : s.pieceStart index ≤ g)
    (hhi : g < s.pieceStart index + s.layout.pieceSize index) :
    (s.dataOf v index)[g - s.pieceStart index]? = some (v g) := by
  rw [dataOf, List.getElem?_map, List.getElem?_range' (by omega), Option.map_some,
    show s.pieceStart index + 1 * (g - s.pieceStart index) = g by omega]

omit [DecidableEq F] in
theorem byteOf_dataOf (hlo : s.pieceStart index ≤ g)
    (hhi : g < s.pieceStart index + s.layout.pieceSize index) :
    s.byteOf index (s.dataOf v index) g = v g := by
  rw [byteOf, List.getD_eq_getElem?_getD, getElem?_dataOf hlo hhi, Option.getD_some]

/-- **No gaps.**  A store that serves right has no block with a part in an open file behind one in
a file that is not open. -/
theorem contiguous_of_serves (ho : s.Opened) (h : Serves sha1 s) {start length : UInt32}
    (hb : s.IsBlock index start length) : s.Contiguous index start length := by
  obtain ⟨hindex, hin⟩ := hb
  obtain ⟨-, hstart⟩ := (ho.starts index).mp hindex
  -- a one for each byte that lies in an open file
  let v : Nat → UInt8 := fun g => if (s.locate g).isSome then 1 else 0
  let hashes : UInt32 → Hash := fun _ => sha1 (s.dataOf v index)
  let limited : Seeder F :=
    { store := { s with
        disk := { content := fun _ => [], outcomes := [] }
        cacheLimit := 18446744073709551615 }
      accepted := [] }
  have hlimit : Seeder.step sha1 hashes (.start s fun _ => [])
      (.setLimit 18446744073709551615, []) = some limited := by
    dsimp only [Seeder.step, Seeder.start, setWriteCacheLimit, evictToLimit]
    rw [ho.empty, drain, Option.map_some]
    dsimp only [limited]
    rw [ho.empty]
  obtain ⟨⟨layout, files, disk, map, cache, bytes, limit⟩, haccept, hlayout, hfiles, hget⟩ :=
    @Seeder.accept_cached F _ Hash _ sha1 hashes limited
      ⟨ho.sited.placed, ho.sited.size, ho.sited.handles⟩ ho.empty ho.bytes rfl index
      (s.dataOf v index) hindex hstart (s.length_dataOf v index) rfl (ho.fresh index)
  change layout = s.layout at hlayout
  change files = s.files at hfiles
  subst hlayout hfiles
  have hrun := StepRun.run_cons_eq_some.mpr ⟨_, hlimit, StepRun.run_cons_eq_some.mpr
    ⟨_, haccept, StepRun.run_nil (Seeder.step sha1 hashes) _⟩⟩
  obtain ⟨out, hread, hprefix⟩ := h hashes _ _ _
    (Seeder.noCollision_of (T := fun _ => s.dataOf v index) fun e he i d hd => by
      rcases List.mem_cons.mp he with rfl | he
      · cases hd
      · obtain rfl := List.mem_singleton.mp he
        exact (EngineCall.accept.inj hd).2.symm) hrun index (s.dataOf v index)
    List.mem_cons_self start length hin
  rw [Sited.readBlock_cached (s := ⟨s.layout, s.files, disk, map, cache, bytes, limit⟩)
    ⟨ho.sited.placed, ho.sited.size, ho.sited.handles⟩ (Nat.le_of_lt hstart) hin hget
    (s.length_dataOf v index)] at hread
  obtain rfl := Except.ok.inj (Option.some.inj hread)
  have hvalue : ∀ g, s.pieceStart index + start.toNat ≤ g →
      g < s.pieceStart index + start.toNat + length.toNat →
      s.byteOf index (s.dataOf v index) g = v g := fun g hlo hhi =>
    byteOf_dataOf (by omega) (by omega)
  have hslice := @slice_eq _ (s.pieceStart index) _ _
    (show start.toNat + length.toNat ≤ (s.dataOf v index).length by
      rw [length_dataOf]
      exact hin)
  rw [List.drop_take, Nat.add_sub_cancel_left] at hslice
  have hopen : blockBytes ⟨s.layout, s.files, disk, map, cache, bytes, limit⟩
      (byteOf ⟨s.layout, s.files, disk, map, cache, bytes, limit⟩ index (s.dataOf v index)) index
      start length = openBytes s.files 0 s.layout.files v (s.pieceStart index + start.toNat)
        (s.pieceStart index + start.toNat + length.toNat) :=
    openBytes_congr fun g hlo hhi => ⟨rfl, hvalue g hlo hhi⟩
  rw [hopen, hslice, List.map_congr_left (g := v) fun g hg => by
    have := List.mem_range'_1.mp hg
    exact hvalue g this.1 this.2, openBytes, Nat.add_sub_cancel_left] at hprefix
  exact fun g k hlo hlt hhi hk => picked_first (p := fun g => (s.locate g).isSome) hprefix hlo hlt
    hhi hk

/-! ## Shared places -/

theorem exists_block {q n : Nat} (hq : q < n) (hreach : q < 8589934590) :
    ∃ start length : UInt32, start.toNat ≤ q ∧ q < start.toNat + length.toNat ∧
      start.toNat + length.toNat ≤ n := by
  have hstart : (UInt32.ofNat (min q 4294967295)).toNat = min q 4294967295 := by
    rw [UInt32.toNat_ofNat', Nat.mod_eq_of_lt (by omega)]
  have hlength : (UInt32.ofNat (q + 1 - min q 4294967295)).toNat = q + 1 - min q 4294967295 := by
    rw [UInt32.toNat_ofNat', Nat.mod_eq_of_lt (by omega)]
  refine ⟨.ofNat (min q 4294967295), .ofNat (q + 1 - min q 4294967295), ?_, ?_, ?_⟩
  · rw [hstart]
    omega
  · rw [hstart, hlength]
    omega
  · rw [hstart, hlength]
    omega

omit [DecidableEq F] in
/-- A byte of a block without a gap is found at its place. -/
theorem Contiguous.get {start length : UInt32} (h : s.Contiguous index start length)
    (hlo : s.pieceStart index + start.toNat ≤ g)
    (hhi : g < s.pieceStart index + start.toNat + length.toNat) (hg : (s.locate g).isSome = true) :
    (s.blockBytes v index start length)[g - (s.pieceStart index + start.toNat)]? = some (v g) := by
  have hopen : ∀ k, s.pieceStart index + start.toNat ≤ k → k < g + 1 →
      (Storage.locate s.files 0 s.layout.files k).isSome = true := by
    intro k hk hk'
    by_cases heq : k = g
    · exact heq ▸ hg
    · exact h k g hk (by omega) hhi hg
  rw [blockBytes, openBytes_split (m := g + 1) (by omega) (by omega), openBytes_all hopen,
    List.getElem?_append_left (by rw [List.length_map, List.length_range']; omega),
    List.getElem?_map, List.getElem?_range' (by omega), Option.map_some,
    show s.pieceStart index + start.toNat + 1 * (g - (s.pieceStart index + start.toNat)) = g by
      omega]

/-- The value of a byte in the files. -/
def fileByte (s : PieceStore F) (content : F → List UInt8) (g : Nat) : UInt8 :=
  match s.locate g with
  | none => 0
  | some (file, p) => (content file).getD p 0

variable {file : F} {p : Nat}

/-- **What was accepted is on the disk**, in a store that serves right: after a run that has
written an accepted piece, each byte of it that a block can reach is at its place. -/
theorem byte_of_serves (ho : s.Opened) (h : Serves sha1 s) {es : List (EngineCall × List Outcome)}
    (hno : NoCollision sha1 hashes es) {content : F → List UInt8} {disk : Disk F} {map : PieceMap}
    {taken : List (UInt32 × List UInt8)}
    (hrun : StepRun.run (Seeder.step sha1 hashes) (.start s content) es =
      some ⟨{ s with disk, map }, taken⟩) {data : List UInt8} (hacc : (index, data) ∈ taken)
    (hindex : index < s.map.count)
    (hthere : ∀ file p g, s.Belongs index file p g → p < (disk.content file).length)
    (hg : s.Belongs index file p g) (hreach : g - s.pieceStart index < 8589934590) :
    (disk.content file)[p]? = data[g - s.pieceStart index]? := by
  have hlt := ho.sited.belongs_lt hg
  obtain ⟨hloc, hge, -⟩ := hg
  obtain ⟨start, length, hlo, hhi, hin⟩ :=
    exists_block (show g - s.pieceStart index < s.layout.pieceSize index by omega) hreach
  have hstart := ((ho.starts index).mp hindex).2
  have hcont := contiguous_of_serves ho h ⟨hindex, hin⟩
  have hbelongs : ∀ file p k, s.locate k = some (file, p) →
      s.pieceStart index + start.toNat ≤ k →
      k < s.pieceStart index + start.toNat + length.toNat → s.Belongs index file p k := by
    intro file p k hk hlo' hhi'
    have hle : s.layout.pieceSize index ≤ s.layout.pieceLength.toNat := Nat.min_le_right _ _
    exact ⟨hk, by omega, by omega⟩
  obtain ⟨out, hread, hprefix⟩ := h hashes content es _ hno hrun index data hacc start length hin
  rw [Sited.readBlock_disk (s := { s with disk, map })
    ⟨ho.sited.placed, ho.sited.size, ho.sited.handles⟩ (Nat.le_of_lt hstart) hin
    (cacheGet_nil ho.empty index) (v := s.fileByte disk.content) fun file p k hk hlo' hhi' => by
      have hp := hthere file p k (hbelongs file p k hk hlo' hhi')
      rw [fileByte, show s.locate k = some (file, p) from hk]
      dsimp only
      rw [List.getD_eq_getElem?_getD, List.getElem?_eq_getElem hp, Option.getD_some]] at hread
  obtain rfl := Except.ok.inj (Option.some.inj hread)
  have hget := hcont.get (v := s.fileByte disk.content) (g := g) (by omega) (by omega)
    (by rw [hloc]; rfl)
  have hp := hthere file p g (hbelongs file p g hloc (by omega) (by omega))
  rw [fileByte, hloc] at hget
  dsimp only at hget
  rw [List.getD_eq_getElem?_getD, List.getElem?_eq_getElem hp, Option.getD_some] at hget
  obtain ⟨tail, htail⟩ := hprefix
  change s.blockBytes (s.fileByte disk.content) index start length ++ tail = _ at htail
  have hslice := @List.getElem?_append_left _ _ tail _ (List.getElem?_eq_some_iff.mp hget).1
  rw [htail, hget, List.getElem?_take, if_pos (by omega), List.getElem?_drop,
    show start.toNat + (g - (s.pieceStart index + start.toNat)) = g - s.pieceStart index by omega]
    at hslice
  rw [hslice, List.getElem?_eq_getElem hp]

omit [DecidableEq F] in
theorem Opened.lt_count (ho : s.Opened) (hg : s.Belongs index file p g) : index < s.map.count := by
  have hlt : 0 ≤ g ∧ g < 0 + s.layout.size := locate_lt ho.sited.placed hg.1
  obtain ⟨-, hlo, hhi⟩ := hg
  exact (ho.starts index).mpr ⟨by omega, by omega⟩

omit [DecidableEq F] in
/-- The last byte of a piece that is written at a place. -/
theorem Lands.dataOf (hs : s.Sited) {disk : Disk F}
    (h : s.Lands index (s.dataOf v index) disk True) (hg : s.Belongs index file p g) :
    ∃ g', g ≤ g' ∧ (disk.content file)[p]? = some (v g') := by
  obtain ⟨g', b, hle, hg', hb, hget⟩ := h.last trivial file p g hg
  rw [getElem?_dataOf hg'.2.1 (hs.belongs_lt hg')] at hb
  exact ⟨g', hle, hget.trans hb.symm⟩

/-- The first of two bytes of a piece at one place is lost. -/
theorem not_serves_within (ho : s.Opened) (h : Serves sha1 s)
    (hsegs : (s.layout.pieceSegments index).isSome = true) {k : Nat}
    (hg : s.Belongs index file p g) (hk : s.Belongs index file p k) (hlt : g < k)
    (hreach : g - s.pieceStart index < 8589934590) : False := by
  have hindex := ho.lt_count hg
  -- that byte is a zero, the others are ones
  let v : Nat → UInt8 := fun n => if n = g then 0 else 1
  let hashes : UInt32 → Hash := fun _ => sha1 (s.dataOf v index)
  obtain ⟨disk, hstep, hlands⟩ := @Seeder.accept_direct F _ Hash _ sha1 hashes
    (.start s fun _ => []) ⟨ho.sited.placed, ho.sited.size, ho.sited.handles⟩ ho.limit index
    (s.dataOf v index) hindex ((ho.starts index).mp hindex).2 hsegs (s.length_dataOf v index) rfl
    (ho.fresh index)
  replace hlands : Lands { s with disk := { content := fun _ => [], outcomes := [] } } index
    (s.dataOf v index) disk True := hlands
  have hlast : ∀ {file : F} {p g : Nat}, s.Belongs index file p g →
      ∃ g', g ≤ g' ∧ (disk.content file)[p]? = some (v g') := fun hg =>
    Lands.dataOf (s := { s with disk := { content := fun _ => [], outcomes := [] } })
      ⟨ho.sited.placed, ho.sited.size, ho.sited.handles⟩ hlands hg
  have hrun := StepRun.run_cons_eq_some.mpr ⟨_, hstep, StepRun.run_nil (Seeder.step sha1 hashes) _⟩
  have hno : NoCollision sha1 hashes [(.accept index (s.dataOf v index), [])] :=
    Seeder.noCollision_of (T := fun _ => s.dataOf v index) fun e he i d hd => by
      obtain rfl := List.mem_singleton.mp he
      exact (EngineCall.accept.inj hd).2.symm
  have hbyte := byte_of_serves ho h hno hrun List.mem_cons_self hindex (fun file p g hg => by
    obtain ⟨g', -, hget⟩ := hlast hg
    exact (List.getElem?_eq_some_iff.mp hget).1) hg hreach
  obtain ⟨k', hle, hget⟩ := hlast hk
  rw [hget, getElem?_dataOf hg.2.1 (ho.sited.belongs_lt hg)] at hbyte
  have hvalue := Option.some.inj hbyte
  dsimp only [v] at hvalue
  rw [if_neg (by omega), if_pos rfl] at hvalue
  exact absurd hvalue (by decide)

/-- A byte at the place of a byte of another piece is lost. -/
theorem not_serves_between (ho : s.Opened) (h : Serves sha1 s) {j : UInt32} (hij : index ≠ j)
    (hsegs : (s.layout.pieceSegments index).isSome = true)
    (hsegs' : (s.layout.pieceSegments j).isSome = true) {k : Nat} (hg : s.Belongs index file p g)
    (hk : s.Belongs j file p k) (hreach : g - s.pieceStart index < 8589934590) : False := by
  have hindex := ho.lt_count hg
  have hj := ho.lt_count hk
  -- the one piece is all zeros, the other all ones
  let v (b : UInt8) : Nat → UInt8 := fun _ => b
  let T : UInt32 → List UInt8 := fun i => if i = index then s.dataOf (v 0) index else s.dataOf (v 1) j
  have hT : T index = s.dataOf (v 0) index := if_pos rfl
  have hT' : T j = s.dataOf (v 1) j := if_neg hij.symm
  let hashes : UInt32 → Hash := fun i => sha1 (T i)
  obtain ⟨disk₁, hstep₁, hlands₁⟩ := @Seeder.accept_direct F _ Hash _ sha1 hashes
    (.start s fun _ => []) ⟨ho.sited.placed, ho.sited.size, ho.sited.handles⟩ ho.limit index
    (s.dataOf (v 0) index) hindex ((ho.starts index).mp hindex).2 hsegs
    (s.length_dataOf (v 0) index) (congrArg sha1 hT.symm) (ho.fresh index)
  let t₁ : Seeder F :=
    ⟨{ s with disk := disk₁, map := s.map.set index }, [(index, s.dataOf (v 0) index)]⟩
  have hnew : (s.map.set index).isSet j = false := by
    rw [PieceMap.isSet_set_of_lt hindex, decide_eq_false hij, ho.fresh j]
    rfl
  obtain ⟨disk₂, hstep₂, hlands₂⟩ := @Seeder.accept_direct F _ Hash _ sha1 hashes t₁
    ⟨ho.sited.placed, ho.sited.size, ho.sited.handles⟩ ho.limit j (s.dataOf (v 1) j)
    ((PieceMap.set_count _ _).symm ▸ hj) ((ho.starts j).mp hj).2 hsegs' (s.length_dataOf (v 1) j)
    (congrArg sha1 hT'.symm) hnew
  replace hlands₁ : Lands { s with disk := { content := fun _ => [], outcomes := [] } } index
    (s.dataOf (v 0) index) disk₁ True := hlands₁
  replace hlands₂ : Lands { s with disk := disk₁ } j (s.dataOf (v 1) j) disk₂ True := hlands₂
  have hrun := StepRun.run_cons_eq_some.mpr ⟨_, hstep₁, StepRun.run_cons_eq_some.mpr
    ⟨_, hstep₂, StepRun.run_nil (Seeder.step sha1 hashes) _⟩⟩
  have hno : NoCollision sha1 hashes
      [(.accept index (s.dataOf (v 0) index), []), (.accept j (s.dataOf (v 1) j), [])] :=
    Seeder.noCollision_of (T := T) fun e he i d hd => by
      rcases List.mem_cons.mp he with rfl | he
      · obtain ⟨rfl, rfl⟩ := EngineCall.accept.inj hd
        exact hT.symm
      · obtain rfl := List.mem_singleton.mp he
        obtain ⟨rfl, rfl⟩ := EngineCall.accept.inj hd
        exact hT'.symm
  have hbyte := byte_of_serves ho h hno hrun (List.mem_cons_of_mem _ List.mem_cons_self) hindex
    (fun file p g hg => by
      obtain ⟨g', -, hget⟩ := Lands.dataOf
        (s := { s with disk := { content := fun _ => [], outcomes := [] } })
        ⟨ho.sited.placed, ho.sited.size, ho.sited.handles⟩ hlands₁ hg
      exact Nat.lt_of_lt_of_le (List.getElem?_eq_some_iff.mp hget).1 (hlands₂.grows file)) hg hreach
  obtain ⟨k', -, hget⟩ := Lands.dataOf (s := { s with disk := disk₁ })
    ⟨ho.sited.placed, ho.sited.size, ho.sited.handles⟩ hlands₂ hk
  rw [hget, getElem?_dataOf hg.2.1 (ho.sited.belongs_lt hg)] at hbyte
  exact absurd (Option.some.inj hbyte) (by decide)

/-- **No shared places.**  In a store that serves right, no byte of a block has the place of
another byte. -/
theorem unshared_of_serves (ho : s.Opened) (h : Serves sha1 s) {start length : UInt32}
    (hb : s.IsBlock index start length) (hsegs : (s.layout.pieceSegments index).isSome = true) :
    s.Unshared index start length := by
  intro file p g hloc hlo hhi j k hsegs' hk
  have hle : s.layout.pieceSize index ≤ s.layout.pieceLength.toNat := Nat.min_le_right _ _
  have hin := hb.2
  have hg : s.Belongs index file p g := ⟨hloc, by omega, by omega⟩
  have hstart := start.toNat_lt
  have hlength := length.toNat_lt
  by_cases hij : index = j
  · subst hij
    refine Classical.byContradiction fun hne => ?_
    rcases Nat.lt_or_gt_of_ne hne with hlt | hgt
    · exact not_serves_within ho h hsegs hk hg hlt (by have := hk.2.1; omega)
    · exact not_serves_within ho h hsegs hg hk hgt (by omega)
  · exact (not_serves_between ho h hij hsegs hsegs' hg hk (by omega)).elim

/-- **What is served.**  The blocks of the pieces that an engine accepts are served right in every
run from a store just opened if and only if no part of a block that lies in an open file comes
after one that is skipped, and no byte in an open file has the place of another one. -/
theorem serves_iff {resolve : List String → F} {name : String} {pieceLength : UInt64}
    {files : List (List String × UInt64)} {layout : PieceLayout}
    (hnew : PieceLayout.new pieceLength files = some layout) {multiFile : Bool}
    {wanted : Option (List Nat)} {disk : Disk F} {s : PieceStore F}
    (hopen : openAt resolve name (layout.withMultiFile multiFile) wanted disk = some s) :
    Serves sha1 s ↔ s.Servable := by
  have ho := openAt_opened hnew hopen
  constructor
  · intro h index start length hb
    exact ⟨contiguous_of_serves ho h hb, unshared_of_serves ho h hb⟩
  · intro h
    exact h.serves ho

/-- Two files of four bytes, in one piece. -/
def twoFiles : PieceLayout where
  pieceLength := 8
  files := [{ path := ["a"], length := 4, offset := 0 }, { path := ["b"], length := 4, offset := 4 }]
  multiFile := true

theorem twoFiles_new : PieceLayout.new 8 [(["a"], 4), (["b"], 4)] = some twoFiles := rfl

/-- A new store over them, with these files open. -/
def halfOpen (files : List (Option (List String))) : PieceStore (List String) where
  layout := twoFiles
  files
  disk := { content := fun _ => [], outcomes := [] }
  map := .new 1
  writeCache := []
  writeCacheBytes := 0
  cacheLimit := 0

theorem halfOpen_first : openAt id "t" (twoFiles.withMultiFile true) (some [0])
    { content := fun _ => [], outcomes := [] } = some (halfOpen [some ["t", "a"], none]) := rfl

theorem first_locate (g : Nat) : (halfOpen [some ["t", "a"], none]).locate g =
    if g < 4 then some (["t", "a"], g) else none := by
  show (if 0 ≤ g ∧ g < 0 + 4 then some (["t", "a"], g - 0)
    else if 4 ≤ g ∧ g < 4 + 4 then none else none) = _
  by_cases hg : g < 4
  · rw [if_pos ⟨Nat.zero_le g, by omega⟩, if_pos hg]
    rfl
  · rw [if_neg (by omega), if_neg hg, ite_self]

/-- Where the last file of a piece is skipped, its blocks are served right. -/
theorem first_serves :
    Serves (id : List UInt8 → List UInt8) (halfOpen [some ["t", "a"], none]) := by
  refine (serves_iff twoFiles_new halfOpen_first).mpr fun index start length _ => ⟨?_, fun _ => ?_⟩
  · intro g h _ hlt _ hh
    rw [first_locate] at hh ⊢
    split at hh
    · rw [if_pos (by omega)]
      rfl
    · cases hh
  · intro file p g hg _ _ j h _ hh
    rw [first_locate] at hg
    have hh := hh.1
    rw [first_locate] at hh
    split at hg
    · split at hh
      · rw [← Option.some.inj hg] at hh
        exact (Prod.mk.inj (Option.some.inj hh)).2
      · cases hh
    · cases hg

/-- Where the first file of a piece is skipped, a block of it is served with the bytes of the
second file in the place of those of the first. -/
theorem second_not_serves :
    ¬ Serves (id : List UInt8 → List UInt8) (halfOpen [none, some ["t", "b"]]) := by
  intro h
  have hrun : ∃ t, StepRun.run (Seeder.step id fun _ => [1, 2, 3, 4, 5, 6, 7, 8])
      (.start (halfOpen [none, some ["t", "b"]]) fun _ => [])
      [(.accept 0 [1, 2, 3, 4, 5, 6, 7, 8], [])] = some t ∧
      t.accepted = [(0, [1, 2, 3, 4, 5, 6, 7, 8])] ∧
      t.store.readBlock 0 0 8 = some (.ok [5, 6, 7, 8]) := ⟨_, rfl, rfl, rfl⟩
  obtain ⟨t, hrun, haccepted, hread⟩ := hrun
  obtain ⟨out, hout, hprefix⟩ := h _ _ _ t (Seeder.noCollision_of
    (T := fun _ => [1, 2, 3, 4, 5, 6, 7, 8]) fun e he i d hd => by
      obtain rfl := List.mem_singleton.mp he
      exact (EngineCall.accept.inj hd).2.symm) hrun 0 [1, 2, 3, 4, 5, 6, 7, 8]
    (haccepted ▸ List.mem_cons_self) 0 8 (by decide)
  obtain rfl := Except.ok.inj (Option.some.inj (hread.symm.trans hout))
  exact absurd hprefix (by decide)

end PieceStore

end XferRust.Storage
