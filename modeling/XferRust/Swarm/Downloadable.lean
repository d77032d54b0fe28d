import XferRust.Storage.Segments
import XferRust.Swarm.Blocks

/-! # Torrents that can be downloaded

The number of pieces is computed twice, of the lengths alone by the layout that the engine stores
into, and of the lengths and the hashes by the torrent itself; both are cast to 32 bits, and so is
the length of a piece that is asked for block by block.  No parser compares the lengths with the
hashes, and the engine takes the hash of a piece by its number.
-/
namespace XferRust
open Tiling (total Tiles)
open Swarm (asU32 blockSize requestBlocks spanOf)
open Storage (PieceLayout)

/-- `piece_count` of the layout, with its cast as the machine makes it. -/
def Storage.PieceLayout.castPieceCount (l : PieceLayout) : Option Nat := do
  let total ← l.totalLength
  some (if l.pieceLength = 0 then 0 else asU32 (Checked.divCeil total l.pieceLength).toNat)

namespace Bencode.Info

/-- `piece_count` of the torrent, with its cast as the machine makes it. -/
def castPieceCount (info : Info) : Option Nat := do
  let total ← info.totalLength
  let byLen := if info.pieceLength = 0 then 0 else Checked.divCeil total info.pieceLength
  some (asU32 (min byLen.toNat info.pieces.length))

/-- The two counts agree, each piece of the layout has a hash, and the blocks that are asked for
cover each byte of it once. -/
def Downloadable (info : Info) : Prop :=
  ∃ l count, PieceLayout.ofInfo info = some l ∧ l.castPieceCount = some count ∧
    info.castPieceCount = some count ∧ ∀ i : UInt32, i.toNat < count →
      (∃ hash, info.pieces[i.toNat]? = some hash) ∧
        ∃ n, l.pieceLen i = some n ∧ Tiles 0 n.toNat
          ((requestBlocks (asU32 n.toNat) blockSize).map fun b => spanOf b.1 b.2)

/-- The lengths add up to less than `2^64`; there are no fewer hashes than pieces, but for a
multiple of `2^32`; and no piece has `2^32` bytes, unless their number is such a multiple. -/
structure Matched (info : Info) : Prop where
  size : info.size < 18446744073709551616
  hashes : info.fullCount ≤ info.pieces.length ∨ asU32 info.fullCount = asU32 info.pieces.length
  short : asU32 info.fullCount = 0 ∨ min info.size info.pieceLength.toNat < 4294967296

/-- The blocks of a length that was cast cover the length if the cast kept it. -/
theorem tiles_asU32_iff {n : Nat} :
    Tiles 0 n ((requestBlocks (asU32 n) blockSize).map fun b => spanOf b.1 b.2) ↔
      n < 4294967296 := by
  have htiles := (@Swarm.requestBlocks_chain (asU32 n) blockSize (by decide)).tiles
  constructor
  · intro h
    -- a byte behind the blocks is covered by none of them
    refine Nat.lt_of_not_le fun hle => ?_
    have hlt : asU32 n < n := Nat.lt_of_lt_of_le (Nat.mod_lt n (by decide)) hle
    have hnone := htiles (asU32 n)
    rw [h (asU32 n), Tiling.Span.hits_of_mem ⟨Nat.zero_le _, hlt⟩,
      Tiling.Span.hits_of_not_mem fun hb => Nat.lt_irrefl _ hb.2] at hnone
    cases hnone
  · intro h
    rw [show asU32 n = n from Nat.mod_eq_of_lt h] at htiles ⊢
    exact htiles

/-- The layout of a torrent, its size and the counts of both. -/
theorem counts_spec {info : Info} (hpl : 0 < info.pieceLength.toNat)
    (hsize : info.size < 18446744073709551616) :
    ∃ l, PieceLayout.ofInfo info = some l ∧ l.pieceLength = info.pieceLength ∧
      l.size = info.size ∧ l.castPieceCount = some (asU32 info.fullCount) ∧
      info.castPieceCount = some (asU32 (min info.fullCount info.pieces.length)) := by
  obtain ⟨l, hl, hlength, hlsize, -⟩ := PieceLayout.exists_ofInfo hsize
  obtain ⟨n, hn⟩ := Checked.exists_toNat hsize
  have hne := pieceLength_ne_zero hpl
  have hfull := toNat_divCeil_size hpl hn
  refine ⟨l, hl, hlength, hlsize, ?_, ?_⟩
  · rw [PieceLayout.castPieceCount, PieceLayout.totalLength_eq_some.mpr (hn.trans hlsize.symm),
      Option.bind_eq_bind, Option.bind_some, hlength, if_neg hne, hfull]
  · rw [castPieceCount, totalLength_eq_some.mpr hn, Option.bind_eq_bind, Option.bind_some]
    dsimp only
    rw [if_neg hne, hfull]

theorem size_of_ofInfo {info : Info} {l : PieceLayout} (h : PieceLayout.ofInfo info = some l) :
    info.size < 18446744073709551616 := by
  obtain ⟨l', hnew, -⟩ := Option.bind_eq_some_iff.mp h
  obtain ⟨ls, hplace, -⟩ := Option.bind_eq_some_iff.mp hnew
  obtain ⟨-, htotal, hlt⟩ := PieceLayout.place_spec hplace
  rw [UInt64.toNat_zero, Nat.zero_add, htotal, Tiling.total_map] at hlt
  exact hlt

theorem asU32_le (n : Nat) : asU32 n ≤ n := Nat.mod_le _ _

/-- A smaller number of hashes keeps the counts equal only by the cast. -/
theorem counts_agree_iff {full hashes : Nat} :
    (asU32 full = asU32 (min full hashes) ∧ asU32 full ≤ hashes) ↔
      full ≤ hashes ∨ asU32 full = asU32 hashes := by
  by_cases hle : full ≤ hashes
  · rw [Nat.min_eq_left hle]
    exact ⟨fun _ => .inl hle, fun _ => ⟨rfl, Nat.le_trans (asU32_le full) hle⟩⟩
  · rw [Nat.min_eq_right (by omega)]
    constructor
    · exact fun h => .inr h.1
    · intro h
      have heq := h.resolve_left hle
      exact ⟨heq, heq ▸ asU32_le hashes⟩

section
variable {Hash : Type} {sha1 : List UInt8 → Hash} {decodeText : List UInt8 → String}

/-- **When an accepted torrent can be downloaded**: the hashes match the lengths, which no parser
checks. -/
theorem downloadable_iff {s : List UInt8} {m : TorrentMeta Hash}
    (h : parseTorrent sha1 decodeText s = .ok m ∨ parseInfoBytes sha1 decodeText s = .ok m) :
    m.info.Downloadable ↔ m.info.Matched := by
  have hpl := pieceLength_pos h
  have hpiece {l : PieceLayout} (hl : PieceLayout.ofInfo m.info = some l)
      (hlength : l.pieceLength = m.info.pieceLength) (hlsize : l.size = m.info.size)
      {i : UInt32} (hi : i.toNat < m.info.fullCount) : ∃ n, l.pieceLen i = some n ∧
        n.toNat = min (m.info.size - i.toNat * m.info.pieceLength.toNat)
          m.info.pieceLength.toNat := by
    have hsize := size_of_ofInfo hl
    have hstart := (Checked.lt_ceilDiv_iff hpl).mp hi
    obtain ⟨size, hn⟩ := Checked.exists_toNat hsize
    obtain ⟨n, hlen⟩ := @exists_pieceLenIn size l.pieceLength i (by rw [hlength]; omega)
    rw [← PieceLayout.totalLength_eq_some.mpr (hn.trans hlsize.symm)] at hlen
    refine ⟨n, hlen, ?_⟩
    rw [PieceLayout.pieceLen_eq_some hlen, PieceLayout.pieceSize, hlength, hlsize]
  constructor
  · rintro ⟨l, count, hl, hcount, hinfo, hall⟩
    have hsize := size_of_ofInfo hl
    obtain ⟨l', hl', hlength, hlsize, hcount', hinfo'⟩ := counts_spec hpl hsize
    obtain rfl := Option.some.inj (hl.symm.trans hl')
    obtain rfl := Option.some.inj (hcount.symm.trans hcount')
    have hagree := Option.some.inj (hinfo.symm.trans hinfo')
    have hlt : asU32 m.info.fullCount < 4294967296 := Nat.mod_lt _ (by decide)
    refine ⟨hsize, counts_agree_iff.mp ⟨hagree, Nat.le_of_not_lt fun hfew => ?_⟩, ?_⟩
    · -- the piece behind the last hash
      have hval : (UInt32.ofNat m.info.pieces.length).toNat = m.info.pieces.length := by
        rw [UInt32.toNat_ofNat', Nat.mod_eq_of_lt (by omega)]
      obtain ⟨⟨hash, hhash⟩, -⟩ := hall (UInt32.ofNat m.info.pieces.length) (by rwa [hval])
      rw [hval, List.getElem?_eq_none (Nat.le_refl _)] at hhash
      cases hhash
    · by_cases hzero : asU32 m.info.fullCount = 0
      · exact .inl hzero
      · obtain ⟨-, n, hn, htiles⟩ := hall 0 (Nat.pos_of_ne_zero hzero)
        obtain ⟨n', hn', hval⟩ := hpiece hl hlength hlsize (i := 0)
          (Nat.lt_of_lt_of_le (Nat.pos_of_ne_zero hzero) (asU32_le _))
        obtain rfl := Option.some.inj (hn.symm.trans hn')
        rw [UInt32.toNat_zero, Nat.zero_mul, Nat.sub_zero] at hval
        exact .inr (hval ▸ tiles_asU32_iff.mp htiles)
  · rintro ⟨hsize, hhashes, hshort⟩
    obtain ⟨l, hl, hlength, hlsize, hcount, hinfo⟩ := counts_spec hpl hsize
    obtain ⟨hagree, henough⟩ := counts_agree_iff.mpr hhashes
    refine ⟨l, _, hl, hcount, hagree ▸ hinfo, fun i hi => ⟨?_, ?_⟩⟩
    · exact ⟨_, List.getElem?_eq_getElem (Nat.lt_of_lt_of_le hi henough)⟩
    · obtain ⟨n, hn, hval⟩ := hpiece hl hlength hlsize (Nat.lt_of_lt_of_le hi (asU32_le _))
      refine ⟨n, hn, tiles_asU32_iff.mpr ?_⟩
      have := hshort.resolve_left (by omega)
      omega

end

/-- A torrent with a hash for each of its two pieces. -/
theorem threeBytes_downloadable :
    ∃ m : TorrentMeta Unit, parseInfoBytes (fun _ => ()) asciiText threeBytes = .ok m ∧
      m.info.Downloadable := by
  obtain ⟨m, hm, hsize, hfull, hhashes⟩ : ∃ m : TorrentMeta Unit,
      parseInfoBytes (fun _ => ()) asciiText threeBytes = .ok m ∧ m.info.size = 3 ∧
      m.info.fullCount = 2 ∧ m.info.pieces.length = 2 := ⟨_, rfl, rfl, rfl, rfl⟩
  refine ⟨m, hm, (downloadable_iff (.inr hm)).mpr ⟨by omega, .inl (by omega), .inr ?_⟩⟩
  rw [hsize]
  exact Nat.lt_of_le_of_lt (Nat.min_le_left _ _) (by decide)

/-- `d6:lengthi4e4:name1:a12:piece lengthi4e6:pieces0:e`: four bytes in one piece, and no hash. -/
def noHash : List UInt8 :=
  [100, 54, 58, 108, 101, 110, 103, 116, 104, 105, 52, 101, 52, 58, 110, 97, 109, 101, 49, 58, 97,
    49, 50, 58, 112, 105, 101, 99, 101, 32, 108, 101, 110, 103, 116, 104, 105, 52, 101, 54, 58, 112,
    105, 101, 99, 101, 115, 48, 58, 101]

/-- It is accepted; the layout has a piece, the torrent has none, and there is no hash for it. -/
theorem noHash_not_downloadable :
    ∃ m : TorrentMeta Unit, parseInfoBytes (fun _ => ()) asciiText noHash = .ok m ∧
      (PieceLayout.ofInfo m.info).bind PieceLayout.castPieceCount = some 1 ∧
      m.info.castPieceCount = some 0 ∧ m.info.pieces[0]? = none ∧ ¬ m.info.Downloadable := by
  obtain ⟨m, hm, hlayout, hinfo, hhash⟩ : ∃ m : TorrentMeta Unit,
      parseInfoBytes (fun _ => ()) asciiText noHash = .ok m ∧
      (PieceLayout.ofInfo m.info).bind PieceLayout.castPieceCount = some 1 ∧
      m.info.castPieceCount = some 0 ∧ m.info.pieces[0]? = none := ⟨_, rfl, rfl, rfl, rfl⟩
  refine ⟨m, hm, hlayout, hinfo, hhash, ?_⟩
  rintro ⟨l, count, hl, hcount, hinfo', -⟩
  rw [hl, Option.bind_some, hcount] at hlayout
  rw [hinfo'] at hinfo
  rw [Option.some.inj hlayout] at hinfo
  cases hinfo

end Bencode.Info

end XferRust
