import Mathlib.Data.List.Induction
import XferRust.Swarm.Metadata
import XferRust.Lib.Sha1

/-! # Metadata arrives whole

Two sides of one transfer.  A peer that has the info dictionary answers every request with the
piece that was asked for, and the pieces make the dictionary again, in whatever order they come
and however often.  And whatever the peers send, what is collected always fits the size that is
collected for, a failure leaves nothing behind, and only bytes with the hash of the link get
through.
-/
namespace XferRust.Swarm

open Bencode
open SortedMap (lookup)

/-! ## Headers -/

theorem headerInt_cons_self (k : Key) (i : Int64) (es : List (Key × Value)) :
    headerInt ((k, .int i) :: es) k = some i := by
  rw [headerInt, SortedMap.lookup_cons, if_pos rfl]
  rfl

theorem headerInt_cons_of_ne {k j : Key} (v : Value) (es : List (Key × Value)) (h : k ≠ j) :
    headerInt ((k, v) :: es) j = headerInt es j := by
  rw [headerInt, SortedMap.lookup_cons, if_neg h]
  rfl

variable {i n : Nat}

theorem asUsize_ofNat (h : n < 18446744073709551616) : asUsize (Int64.ofNat n) = n := by
  rw [asUsize, Int64.toUInt64_ofNat']
  exact UInt64.toNat_ofNat_of_lt h

theorem toInt_ofNat (h : n < 9223372036854775808) : (Int64.ofNat n).toInt = n :=
  Int64.toInt_ofNat_of_lt h

/-- The entries of a header: integers under ascending keys. -/
abbrev header (es : List (Key × Int64)) : List (Key × Value) := es.map fun e => (e.1, .int e.2)

theorem header_proper {es : List (Key × Int64)} (hasc : (es.map Prod.fst).Pairwise (· < ·))
    (hlen : ∀ k ∈ es.map Prod.fst, k.length < 18446744073709551616) :
    (Value.dict (header es)).Proper := by
  refine ⟨⟨?_, ?_⟩, Value.allEntries_iff.mpr ?_⟩
  · exact List.pairwise_map.mpr (List.pairwise_map.mp hasc)
  · intro e he
    obtain ⟨e', he', rfl⟩ := List.mem_map.mp he
    exact hlen e'.1 (List.mem_map_of_mem he')
  · intro e he
    obtain ⟨e', _, rfl⟩ := List.mem_map.mp he
    trivial

theorem header_depth (es : List (Key × Int64)) : (Value.dict (header es)).depth ≤ maxDepth := by
  refine Value.depthEntries_le.mpr fun e he => ?_
  obtain ⟨e', _, rfl⟩ := List.mem_map.mp he
  exact show 0 + 1 ≤ 64 by decide

/-- A header is read back from the front of a payload. -/
theorem decodePrefix_header (es : List (Key × Int64)) (hasc : (es.map Prod.fst).Pairwise (· < ·))
    (hlen : ∀ k ∈ es.map Prod.fst, k.length < 18446744073709551616) (rest : List UInt8) :
    decodePrefix (encode (.dict (header es)) ++ rest) =
      .ok (.dict (header es), (encode (.dict (header es))).length) :=
  decodePrefix_encode (header_proper hasc hlen) (header_depth es) rest

theorem parseHeader_eq {payload : List UInt8} {dict : List (Key × Value)}
    (h : decodePrefix payload = .ok (.dict dict, n)) : parseHeader payload = some (dict, n) := by
  rw [parseHeader, h]

/-! ## The pieces of an info dictionary -/

theorem lt_metadataPieceCount {size : Nat} :
    i < metadataPieceCount size ↔ i * metadataPieceSize < size := by
  rw [metadataPieceCount, metadataPieceSize]
  omega

theorem metadataSlice_length (info : List UInt8) (i : Nat) :
    (metadataSlice info i).length =
      min metadataPieceSize (info.length - i * metadataPieceSize) := by
  rw [metadataSlice, List.length_take, List.length_drop]

theorem flatten_slices (info : List UInt8) (n : Nat) :
    ((List.range n).map (metadataSlice info)).flatten = info.take (n * metadataPieceSize) := by
  induction n with
  | zero => rw [Nat.zero_mul]; rfl
  | succ n ih =>
    rw [List.range_succ, List.map_append, List.flatten_append, ih, Nat.succ_mul, List.take_add]
    exact congrArg (_ ++ ·) (List.append_nil _)

/-- All pieces one after the other are the dictionary. -/
theorem flatten_all_slices (info : List UInt8) :
    ((List.range (metadataPieceCount info.length)).map (metadataSlice info)).flatten = info := by
  rw [flatten_slices]
  refine List.take_of_length_le ?_
  exact Nat.le_of_not_lt fun h => Nat.lt_irrefl _ (lt_metadataPieceCount.mpr h)

/-! ## The answer of a peer that has it -/

/-- A request is answered with the piece that it asks for. -/
theorem serveUtMetadata_request {info : List UInt8} {replyExtId : UInt8}
    (hmax : info.length ≤ maxMetadataSize) (hext : replyExtId ≠ 0)
    (hi : i < metadataPieceCount info.length) :
    serveUtMetadata (some info) replyExtId (utMetadataRequestPayload i) =
      some (dataPayload info i) := by
  have hlt : i < 4194304 := by
    have hsize : info.length ≤ 4194304 := hmax
    rw [metadataPieceCount, metadataPieceSize] at hi
    omega
  have hdecode : decodePrefix (utMetadataRequestPayload i ++ []) =
      .ok (.dict [(msgTypeKey, .int utMetadataRequest), (pieceKey, .int (Int64.ofNat i))],
        (utMetadataRequestPayload i).length) :=
    decodePrefix_header [(msgTypeKey, utMetadataRequest), (pieceKey, Int64.ofNat i)]
      (show [msgTypeKey, pieceKey].Pairwise (· < ·) by decide)
      (show ∀ k ∈ [msgTypeKey, pieceKey], k.length < 18446744073709551616 by decide) []
  rw [List.append_nil] at hdecode
  have hnonneg : (0 : Int) ≤ (Int64.ofNat i).toInt := by
    rw [toInt_ofNat (by omega)]
    exact Int.natCast_nonneg i
  rw [serveUtMetadata, if_neg hext, parseHeader_eq hdecode]
  dsimp only
  rw [headerInt_cons_self, headerInt_cons_of_ne _ _ (by decide), headerInt_cons_self,
    if_neg (fun h => h rfl), Option.filter_some, if_pos (decide_eq_true hnonneg)]
  dsimp only
  rw [asUsize_ofNat (by omega), if_pos hi]

/-- A piece of this size and index belongs to metadata of this size. -/
structure PieceFits (size piece : Nat) (bytes : List UInt8) : Prop where
  size_pos : 0 < size
  index : piece < metadataPieceCount size
  length : bytes.length = min metadataPieceSize (size - piece * metadataPieceSize)

theorem checkData_ok {dict : List (Key × Value)} {bytes : List UInt8} {d : DataPiece} :
    checkData dict bytes = .ok d ↔
      (headerInt dict pieceKey).map asUsize = some d.piece ∧
        (headerInt dict totalSizeKey).map asUsize = some d.totalSize ∧
        PieceFits d.totalSize d.piece bytes ∧ d.totalSize ≤ maxMetadataSize ∧ d.bytes = bytes := by
  constructor
  · intro h
    obtain ⟨piece, hpiece, h⟩ := except_bind_ok.mp h
    obtain ⟨totalSize, htotal, h⟩ := except_bind_ok.mp h
    split at h
    · cases h
    · rename_i hsize
      split at h
      · cases h
      · dsimp only at h
        split at h
        · cases h
        · rename_i hindex
          split at h
          · cases h
          · rename_i hlen
            obtain rfl := Except.ok.inj h
            obtain ⟨hpos, hmax⟩ := not_or.mp hsize
            exact ⟨okOr_ok.mp hpiece, okOr_ok.mp htotal,
              ⟨Nat.pos_of_ne_zero hpos, Nat.lt_of_not_le hindex, Decidable.not_not.mp hlen⟩,
              Nat.le_of_not_lt hmax, rfl⟩
  · rintro ⟨hpiece, htotal, ⟨hpos, hindex, hlen⟩, hmax, hbytes⟩
    refine except_bind_ok.mpr ⟨d.piece, okOr_ok.mpr hpiece, ?_⟩
    refine except_bind_ok.mpr ⟨d.totalSize, okOr_ok.mpr htotal, ?_⟩
    have hne : bytes ≠ [] := by
      intro hnil
      have hlt := lt_metadataPieceCount.mp hindex
      rw [hnil, List.length_nil, metadataPieceSize] at hlen
      rw [metadataPieceSize] at hlt
      omega
    have hsize : ¬(d.totalSize = 0 ∨ maxMetadataSize < d.totalSize) :=
      not_or.mpr ⟨Nat.ne_of_gt hpos, Nat.not_lt.mpr hmax⟩
    rw [if_neg hsize, if_neg hne]
    dsimp only
    rw [if_neg (Nat.not_le.mpr hindex), if_neg (fun h => h hlen), ← hbytes]

/-- The header of a `DATA` message. -/
abbrev dataHeader (info : List UInt8) (i : Nat) : List (Key × Value) :=
  [(msgTypeKey, .int utMetadataData), (pieceKey, .int (Int64.ofNat i)),
    (totalSizeKey, .int (Int64.ofNat info.length))]

/-- What the answer is taken for. -/
theorem parsePayload_data {info : List UInt8} (hmax : info.length ≤ maxMetadataSize)
    (hi : i < metadataPieceCount info.length) :
    parsePayload (dataPayload info i) =
      .data { piece := i, totalSize := info.length, bytes := metadataSlice info i } := by
  have hsize : info.length ≤ 4194304 := hmax
  have hlt := lt_metadataPieceCount.mp hi
  have hpos : info.length ≠ 0 := by omega
  rw [metadataPieceSize] at hlt
  have hdecode : decodePrefix (dataPayload info i) =
      .ok (.dict (dataHeader info i), (encode (.dict (dataHeader info i))).length) :=
    decodePrefix_header [(msgTypeKey, utMetadataData), (pieceKey, Int64.ofNat i),
        (totalSizeKey, Int64.ofNat info.length)]
      (show [msgTypeKey, pieceKey, totalSizeKey].Pairwise (· < ·) by decide)
      (show ∀ k ∈ [msgTypeKey, pieceKey, totalSizeKey], k.length < 18446744073709551616 by decide)
      (metadataSlice info i)
  have hdrop : (dataPayload info i).drop (encode (.dict (dataHeader info i))).length =
      metadataSlice info i := List.drop_left
  have htype : headerInt (dataHeader info i) msgTypeKey = some utMetadataData :=
    headerInt_cons_self _ _ _
  have hpiece : headerInt (dataHeader info i) pieceKey = some (Int64.ofNat i) :=
    (headerInt_cons_of_ne _ _ (by decide)).trans (headerInt_cons_self _ _ _)
  have htotal : headerInt (dataHeader info i) totalSizeKey = some (Int64.ofNat info.length) :=
    (headerInt_cons_of_ne _ _ (by decide)).trans
      ((headerInt_cons_of_ne _ _ (by decide)).trans (headerInt_cons_self _ _ _))
  have hcheck : checkData (dataHeader info i) (metadataSlice info i) =
      .ok { piece := i, totalSize := info.length, bytes := metadataSlice info i } := by
    have hfits : PieceFits info.length i (metadataSlice info i) :=
      ⟨Nat.pos_of_ne_zero hpos, hi, metadataSlice_length info i⟩
    refine checkData_ok.mpr ⟨?_, ?_, hfits, hmax, rfl⟩
    · rw [hpiece, Option.map_some, asUsize_ofNat (by omega)]
    · rw [htotal, Option.map_some, asUsize_ofNat (by omega)]
  rw [parsePayload, hdecode]
  dsimp only [Value.asDict]
  rw [htype, hdrop, hcheck]
  rfl

/-! ## What is collected -/

namespace MetadataAccum

theorem mapM_eq_some {α β : Type} {f : α → Option β} {g : α → β} {xs : List α}
    (h : ∀ x ∈ xs, f x = some (g x)) : xs.mapM f = some (xs.map g) := by
  induction xs with
  | nil => rfl
  | cons x xs ih =>
    obtain ⟨hx, hxs⟩ := List.forall_mem_cons.mp h
    rw [List.mapM_cons, hx, ih hxs]
    rfl

/-- What is collected fits the size that it is collected for. -/
structure Fits (md : MetadataAccum) : Prop where
  size : ∀ size, md.expectedSize = some size → size ≤ maxMetadataSize
  piece : ∀ e ∈ md.pieces.entries, ∃ size, md.expectedSize = some size ∧ PieceFits size e.1 e.2

theorem empty_fits : empty.Fits := ⟨nofun, nofun⟩

/-- Only the pieces and the size matter. -/
theorem Fits.congr {md md' : MetadataAccum} (h : md.Fits) (hpieces : md'.pieces = md.pieces)
    (hsize : md'.expectedSize = md.expectedSize) : md'.Fits :=
  ⟨hsize ▸ h.size, hpieces ▸ hsize ▸ h.piece⟩

variable (md : MetadataAccum)

theorem collect_expectedSize (size i : Nat) (bytes : List UInt8) :
    (md.collect size i bytes).expectedSize = some size := by
  rw [collect]
  split
  · rfl
  · rename_i h
    exact Decidable.not_not.mp h

/-- What a piece comes to: the pieces of the same size, or none. -/
theorem collect_pieces (size i : Nat) (bytes : List UInt8) :
    (md.collect size i bytes).pieces =
      (if md.expectedSize = some size then md.pieces else .empty).insert i bytes := by
  rw [collect]
  by_cases h : md.expectedSize = some size
  · rw [if_neg (fun hne => hne h), if_pos h]
  · rw [if_pos h, if_neg h]

theorem collect_fits {md : MetadataAccum} {size i : Nat} {bytes : List UInt8} (h : md.Fits)
    (hmax : size ≤ maxMetadataSize) (hpiece : PieceFits size i bytes) :
    (md.collect size i bytes).Fits := by
  have hsize := collect_expectedSize md size i bytes
  constructor
  · intro size' hsize'
    rw [hsize] at hsize'
    exact Option.some.inj hsize' ▸ hmax
  · intro e he
    refine ⟨size, hsize, ?_⟩
    rw [collect_pieces] at he
    rcases SortedMap.mem_of_mem_insert he with rfl | he
    · exact hpiece
    · split at he
      · rename_i heq
        obtain ⟨size', hsize', hfits⟩ := h.piece e he
        rw [heq] at hsize'
        exact Option.some.inj hsize' ▸ hfits
      · cases he

theorem askFirst_pieces :
    md.askFirst.pieces = md.pieces ∧ md.askFirst.expectedSize = md.expectedSize := by
  rw [askFirst]
  split <;> exact ⟨rfl, rfl⟩

theorem nextMetadataPiece_pieces :
    md.nextMetadataPiece.1.pieces = md.pieces ∧
      md.nextMetadataPiece.1.expectedSize = md.expectedSize := by
  rw [nextMetadataPiece]
  split
  · exact ⟨rfl, rfl⟩
  · split <;> exact ⟨rfl, rfl⟩

theorem releaseUnreceived_pieces :
    md.releaseUnreceived.pieces = md.pieces ∧
      md.releaseUnreceived.expectedSize = md.expectedSize := by
  rw [releaseUnreceived]
  split
  · split <;> exact ⟨rfl, rfl⟩
  · exact ⟨rfl, rfl⟩

/-! ## Collecting the answers -/

/-- The pieces of `info` that are collected are those of the indices `got`. -/
structure Holds (md : MetadataAccum) (info : List UInt8) (got : List Nat) : Prop where
  piece : ∀ i, md.pieces.find? i = if i ∈ got then some (metadataSlice info i) else none
  size : got ≠ [] → md.expectedSize = some info.length
  index : ∀ i ∈ got, i < metadataPieceCount info.length

end MetadataAccum

/-- All pieces of `info` are among `got`. -/
def Covers (info : List UInt8) (got : List Nat) : Prop :=
  ∀ i < metadataPieceCount info.length, i ∈ got

instance (info : List UInt8) (got : List Nat) : Decidable (Covers info got) :=
  inferInstanceAs (Decidable (∀ i < metadataPieceCount info.length, i ∈ got))

namespace MetadataAccum

variable {md : MetadataAccum}

theorem holds_nil (info : List UInt8) (h : md.pieces.entries = []) : md.Holds info [] := by
  refine ⟨fun i => ?_, fun hne => (hne rfl).elim, nofun⟩
  rw [SortedMap.find?, h]
  rfl

theorem Holds.collect {info : List UInt8} {got : List Nat} {i : Nat} (h : md.Holds info got)
    (hi : i < metadataPieceCount info.length) :
    (md.collect info.length i (metadataSlice info i)).Holds info (got ++ [i]) := by
  refine ⟨fun j => ?_, fun _ => collect_expectedSize .., fun j hj => ?_⟩
  · have hbefore : (if md.expectedSize = some info.length then md.pieces else .empty).find? j =
        if j ∈ got then some (metadataSlice info j) else none := by
      split
      · exact h.piece j
      · rename_i hne
        have hgot : got = [] := Decidable.not_not.mp fun hgot => hne (h.size hgot)
        rw [hgot]
        rfl
    rw [collect_pieces, SortedMap.find?_insert, hbefore]
    by_cases hij : i = j
    · subst hij
      rw [if_pos rfl, if_pos (List.mem_append_right _ List.mem_cons_self)]
    · rw [if_neg hij]
      refine if_congr ?_ rfl rfl
      rw [List.mem_append, List.mem_singleton]
      exact ⟨.inl, fun hj => hj.resolve_right fun hji => hij hji.symm⟩
  · rcases List.mem_append.mp hj with hj | hj
    · exact h.index j hj
    · exact List.mem_singleton.mp hj ▸ hi

/-- The pieces make the dictionary when they are all there, and nothing before. -/
theorem Holds.assemble {info : List UInt8} {got : List Nat} (h : md.Holds info got)
    (hgot : got ≠ []) : md.assemble = if Covers info got then some info else none := by
  have hmem : ∀ i, i ∈ md.pieces.keys ↔ i ∈ got := by
    intro i
    rw [← SortedMap.find?_isSome, h.piece]
    by_cases hi : i ∈ got
    · rw [if_pos hi]
      exact ⟨fun _ => hi, fun _ => rfl⟩
    · rw [if_neg hi]
      exact ⟨fun hf => absurd hf Bool.false_ne_true, fun hi' => absurd hi' hi⟩
  have hlength : md.pieces.entries.length = metadataPieceCount info.length ↔ Covers info got := by
    rw [SortedMap.length_eq_iff fun k hk => h.index k ((hmem k).mp hk)]
    exact forall₂_congr fun k _ => hmem k
  have hcount : md.pieceCount = some (metadataPieceCount info.length) := by
    rw [pieceCount, h.size hgot]
    rfl
  rw [MetadataAccum.assemble, hcount, Option.bind_some]
  by_cases hcovers : Covers info got
  · have hall : (List.range (metadataPieceCount info.length)).mapM md.pieces.find? =
        some ((List.range (metadataPieceCount info.length)).map (metadataSlice info)) := by
      refine mapM_eq_some fun i hi => ?_
      rw [h.piece, if_pos (hcovers i (List.mem_range.mp hi))]
    rw [if_neg (fun hne => hne (hlength.mpr hcovers)), hall, if_pos hcovers, Option.map_some,
      flatten_all_slices]
  · rw [if_pos (fun heq => hcovers (hlength.mp heq)), if_neg hcovers]

end MetadataAccum

section
variable {Hash : Type} [DecidableEq Hash] {sha1 : List UInt8 → Hash}
  {decodeText : List UInt8 → String} {infoHash : Hash}
variable {assembled payload : List UInt8} {m : TorrentMeta Hash}

/-- Metadata that passes is of bytes with the hash of the link. -/
theorem judge_ok (h : judge sha1 decodeText infoHash assembled = .ok m) :
    parseInfoBytes sha1 decodeText assembled = .ok m ∧ sha1 assembled = infoHash ∧
      m.rawInfo = some assembled := by
  rw [judge] at h
  split at h
  · cases h
  · rename_i m' hparse
    split at h
    · cases h
    · rename_i hhash
      obtain rfl := Except.ok.inj h
      obtain ⟨⟨top, consumed⟩, _, hbody⟩ := except_bind_ok.mp hparse
      dsimp only at hbody
      split at hbody
      · cases hbody
      · obtain ⟨info, _, hinfo⟩ := except_bind_ok.mp hbody
        obtain rfl := Except.ok.inj hinfo
        exact ⟨hparse, Decidable.not_not.mp hhash, rfl⟩

variable (sha1 decodeText infoHash) in
/-- A payload with a piece is settled with what is collected then. -/
theorem handleMetadataPayload_data {d : DataPiece} (md : MetadataAccum)
    (h : parsePayload payload = .data d) :
    handleMetadataPayload sha1 decodeText infoHash md payload =
      settle sha1 decodeText infoHash (md.collect d.totalSize d.piece d.bytes) := by
  rw [handleMetadataPayload, h]

/-- The piece of a payload has passed the checks. -/
theorem parsePayload_fits {d : DataPiece} (h : parsePayload payload = .data d) :
    PieceFits d.totalSize d.piece d.bytes ∧ d.totalSize ≤ maxMetadataSize := by
  rw [parsePayload] at h
  split at h
  · cases h
  · split at h
    · cases h
    · dsimp only at h
      split at h
      · cases h
      · split at h
        · cases h
        · split at h
          · cases h
          · rename_i hcheck
            obtain rfl := Payload.data.inj h
            obtain ⟨_, _, hfits, hmax, hbytes⟩ := checkData_ok.mp hcheck
            exact ⟨hbytes ▸ hfits, hmax⟩

variable {md : MetadataAccum}

theorem settle_of_none (h : md.assemble = none) :
    settle sha1 decodeText infoHash md = (md, .ok none) := by
  rw [settle, h]

theorem settle_of_ok (h : md.assemble = some assembled)
    (hjudge : judge sha1 decodeText infoHash assembled = .ok m) :
    settle sha1 decodeText infoHash md = (md, .ok (some m)) := by
  rw [settle, h]
  dsimp only
  rw [hjudge]

/-- A failure leaves nothing collected. -/
theorem settle_of_error {e : String} (h : md.assemble = some assembled)
    (hjudge : judge sha1 decodeText infoHash assembled = .error e) :
    settle sha1 decodeText infoHash md = (.empty, .error e) := by
  rw [settle, h]
  dsimp only
  rw [hjudge]

theorem settle_fits (h : md.Fits) : (settle sha1 decodeText infoHash md).1.Fits := by
  rw [settle]
  split
  · exact h
  · split
    · exact MetadataAccum.empty_fits
    · exact h

theorem handleMetadataPayload_fits (payload : List UInt8) (h : md.Fits) :
    (handleMetadataPayload sha1 decodeText infoHash md payload).1.Fits := by
  rw [handleMetadataPayload]
  split
  · exact h
  · exact h.congr rfl rfl
  · exact h
  · rename_i d hd
    obtain ⟨hfits, hmax⟩ := parsePayload_fits hd
    exact settle_fits (MetadataAccum.collect_fits h hmax hfits)

/-- Only a piece that completes the collection gets metadata through. -/
theorem handleMetadataPayload_some
    (h : (handleMetadataPayload sha1 decodeText infoHash md payload).2 = .ok (some m)) :
    ∃ assembled,
      (handleMetadataPayload sha1 decodeText infoHash md payload).1.assemble = some assembled ∧
        parseInfoBytes sha1 decodeText assembled = .ok m ∧ sha1 assembled = infoHash ∧
        m.rawInfo = some assembled := by
  rw [handleMetadataPayload] at h ⊢
  split at h
  · cases h
  · cases h
  · cases h
  · rw [settle] at h ⊢
    split at h
    · cases h
    · rename_i assembled hassembled
      split at h
      · cases h
      · rename_i m' hjudge
        obtain rfl := Option.some.inj (Except.ok.inj h)
        exact ⟨assembled, hassembled, judge_ok hjudge⟩

/-! ## Runs -/

/-- The calls that the sessions make on the collection, each of them under its lock. -/
inductive MetadataCall where
  | handlePayload (payload : List UInt8)
  | askFirst
  | next
  | release

variable (sha1 decodeText infoHash) in
/-- The collection after a call. -/
def MetadataAccum.after (md : MetadataAccum) : MetadataCall → MetadataAccum
  | .handlePayload payload => (handleMetadataPayload sha1 decodeText infoHash md payload).1
  | .askFirst => md.askFirst
  | .next => md.nextMetadataPiece.1
  | .release => md.releaseUnreceived

theorem MetadataAccum.after_fits (call : MetadataCall) (h : md.Fits) :
    (md.after sha1 decodeText infoHash call).Fits := by
  cases call with
  | handlePayload payload => exact handleMetadataPayload_fits payload h
  | askFirst => exact h.congr md.askFirst_pieces.1 md.askFirst_pieces.2
  | next => exact h.congr md.nextMetadataPiece_pieces.1 md.nextMetadataPiece_pieces.2
  | release => exact h.congr md.releaseUnreceived_pieces.1 md.releaseUnreceived_pieces.2

theorem MetadataAccum.foldl_after_fits (calls : List MetadataCall) (h : md.Fits) :
    (calls.foldl (MetadataAccum.after sha1 decodeText infoHash) md).Fits := by
  induction calls generalizing md with
  | nil => exact h
  | cons call calls ih => exact ih (md.after_fits call h)

variable (sha1 decodeText infoHash) in
/-- The collection after the answers with the pieces `order` of `info`. -/
def collectAnswers (md : MetadataAccum) (info : List UInt8) (order : List Nat) : MetadataAccum :=
  order.foldl (fun md i =>
    (handleMetadataPayload sha1 decodeText infoHash md (dataPayload info i)).1) md

theorem collectAnswers_concat (md : MetadataAccum) (info : List UInt8) (order : List Nat)
    (i : Nat) :
    collectAnswers sha1 decodeText infoHash md info (order ++ [i]) =
      (handleMetadataPayload sha1 decodeText infoHash
        (collectAnswers sha1 decodeText infoHash md info order) (dataPayload info i)).1 := by
  rw [collectAnswers, List.foldl_append]
  rfl

variable (sha1 decodeText infoHash) in
/-- The answer with one more piece. -/
theorem handleMetadataPayload_answer {info : List UInt8} {got : List Nat} {i : Nat}
    (hmax : info.length ≤ maxMetadataSize) (h : md.Holds info got)
    (hi : i < metadataPieceCount info.length) :
    handleMetadataPayload sha1 decodeText infoHash md (dataPayload info i) =
        settle sha1 decodeText infoHash (md.collect info.length i (metadataSlice info i)) ∧
      (md.collect info.length i (metadataSlice info i)).assemble =
        (if Covers info (got ++ [i]) then some info else none) ∧
      (handleMetadataPayload sha1 decodeText infoHash md (dataPayload info i)).2 =
        if Covers info (got ++ [i]) then (judge sha1 decodeText infoHash info).map some
        else .ok none := by
  have hsettle := handleMetadataPayload_data sha1 decodeText infoHash md
    (parsePayload_data hmax hi)
  have hassemble := (h.collect hi).assemble (List.append_ne_nil_of_right_ne_nil _ (by simp))
  refine ⟨hsettle, hassemble, ?_⟩
  rw [hsettle]
  by_cases hcovers : Covers info (got ++ [i])
  · rw [if_pos hcovers] at hassemble ⊢
    cases hjudge : judge sha1 decodeText infoHash info with
    | error e => rw [settle_of_error hassemble hjudge]; rfl
    | ok m => rw [settle_of_ok hassemble hjudge]; rfl
  · rw [if_neg hcovers] at hassemble ⊢
    rw [settle_of_none hassemble]

/-- As long as pieces are missing, or the dictionary is the one of the link, every answer stays. -/
theorem collectAnswers_holds {info : List UInt8} {order : List Nat}
    (hmax : info.length ≤ maxMetadataSize) (hmd : md.pieces.entries = [])
    (horder : ∀ i ∈ order, i < metadataPieceCount info.length)
    (hlink : ¬Covers info order ∨ ∃ m, judge sha1 decodeText infoHash info = .ok m) :
    (collectAnswers sha1 decodeText infoHash md info order).Holds info order := by
  induction order using List.reverseRecOn with
  | nil => exact MetadataAccum.holds_nil info hmd
  | append_singleton order i ih =>
    have hi := horder i (List.mem_append_right _ List.mem_cons_self)
    have hbefore := ih (fun j hj => horder j (List.mem_append_left _ hj))
      (hlink.imp_left fun hmissing hcovers =>
        hmissing fun j hj => List.mem_append_left _ (hcovers j hj))
    obtain ⟨hsettle, hassemble, _⟩ := handleMetadataPayload_answer sha1 decodeText infoHash
      hmax hbefore hi
    have hafter := hbefore.collect hi
    rw [collectAnswers_concat, hsettle]
    by_cases hcovers : Covers info (order ++ [i])
    · rw [if_pos hcovers] at hassemble
      obtain ⟨m, hm⟩ := hlink.resolve_left fun hmissing => hmissing hcovers
      rw [settle_of_ok hassemble hm]
      exact hafter
    · rw [if_neg hcovers] at hassemble
      rw [settle_of_none hassemble]
      exact hafter

variable (sha1 decodeText infoHash) in
/-- **The transfer is complete.**  The answers to the requests for all pieces of `info` make `info`
again: the one with the last piece that was missing completes it and none before, in any order and
with any duplicates, and when `info` is the dictionary of the link, so does every later one. -/
def TransfersWhole (info : List UInt8) : Prop :=
  (∀ replyExtId, replyExtId ≠ 0 → ∀ i < metadataPieceCount info.length,
    serveUtMetadata (some info) replyExtId (utMetadataRequestPayload i) =
      some (dataPayload info i)) ∧
  ∀ (md : MetadataAccum) (order : List Nat) (i : Nat), md.pieces.entries = [] →
    (∀ j ∈ order ++ [i], j < metadataPieceCount info.length) →
    (¬Covers info order ∨ ∃ m, judge sha1 decodeText infoHash info = .ok m) →
    let before := collectAnswers sha1 decodeText infoHash md info order
    handleMetadataPayload sha1 decodeText infoHash before (dataPayload info i) =
        settle sha1 decodeText infoHash
          (before.collect info.length i (metadataSlice info i)) ∧
      (before.collect info.length i (metadataSlice info i)).assemble =
        (if Covers info (order ++ [i]) then some info else none) ∧
      (handleMetadataPayload sha1 decodeText infoHash before (dataPayload info i)).2 =
        if Covers info (order ++ [i]) then (judge sha1 decodeText infoHash info).map some
        else .ok none

variable (sha1 decodeText infoHash) in
/-- **The collection cannot be poisoned.**  After any calls what is collected fits; a payload that
completes something that does not parse or has another hash leaves nothing; and metadata that gets
through has been parsed from bytes with the hash of the link. -/
def PoisonProof (calls : List MetadataCall) (payload : List UInt8) : Prop :=
  let md := calls.foldl (MetadataAccum.after sha1 decodeText infoHash) .empty
  md.Fits ∧
  (∀ d assembled e, parsePayload payload = .data d →
    (md.collect d.totalSize d.piece d.bytes).assemble = some assembled →
    judge sha1 decodeText infoHash assembled = .error e →
    handleMetadataPayload sha1 decodeText infoHash md payload = (.empty, .error e)) ∧
  ∀ m, (handleMetadataPayload sha1 decodeText infoHash md payload).2 = .ok (some m) →
    ∃ assembled, parseInfoBytes sha1 decodeText assembled = .ok m ∧
      sha1 assembled = infoHash ∧ m.rawInfo = some assembled

/-- **Metadata arrives whole, and nothing else does.** -/
theorem metadata_complete_and_poisonProof :
    (∀ info : List UInt8, 1 ≤ info.length → info.length ≤ maxMetadataSize →
      TransfersWhole sha1 decodeText infoHash info) ∧
    ∀ calls payload, PoisonProof sha1 decodeText infoHash calls payload := by
  constructor
  · intro info _ hmax
    constructor
    · intro replyExtId hext i hi
      exact serveUtMetadata_request hmax hext hi
    · intro md order i hmd horder hlink
      have hbefore := collectAnswers_holds hmax hmd
        (fun j hj => horder j (List.mem_append_left _ hj)) hlink
      exact handleMetadataPayload_answer sha1 decodeText infoHash hmax hbefore
        (horder i (List.mem_append_right _ List.mem_cons_self))
  · intro calls payload
    refine ⟨MetadataAccum.foldl_after_fits calls MetadataAccum.empty_fits, ?_, ?_⟩
    · intro d assembled e hd hassembled hjudge
      rw [handleMetadataPayload_data _ _ _ _ hd, settle_of_error hassembled hjudge]
    · intro m hm
      obtain ⟨assembled, _, hparse, hhash, hraw⟩ := handleMetadataPayload_some hm
      exact ⟨assembled, hparse, hhash, hraw⟩

end

/-- `d6:lengthi1e4:name1:a12:piece lengthi16384e6:pieces20:…e`, with twenty zeros. -/
def tinyInfo : List UInt8 :=
  encode (.dict [(lengthKey, .int 1), (nameKey, .bytes [97]), (pieceLengthKey, .int 16384),
    (piecesKey, .bytes (List.replicate 20 48))])

/-- The one piece of it completes it, and its metadata gets through. -/
theorem tinyInfo_complete_and_poisonProof :
    (∃ m, (handleMetadataPayload Sha1.digest (fun _ => "a") (Sha1.digest tinyInfo) .empty
        (dataPayload tinyInfo 0)).2 = .ok (some m) ∧ m.rawInfo = some tinyInfo) ∧
      PoisonProof Sha1.digest (fun _ => "a") (Sha1.digest tinyInfo)
        [.askFirst, .handlePayload [105]] (dataPayload tinyInfo 0) := by
  refine ⟨?_, metadata_complete_and_poisonProof.2 _ _⟩
  have hwhole : TransfersWhole Sha1.digest (fun _ => "a") (Sha1.digest tinyInfo) tinyInfo :=
    metadata_complete_and_poisonProof.1 tinyInfo (by decide) (by decide)
  have hone := (hwhole.2 .empty [] 0 rfl (by decide) (.inl (by decide))).2.2
  rw [if_pos (by decide)] at hone
  have hok : (judge Sha1.digest (fun _ => "a") (Sha1.digest tinyInfo) tinyInfo).isOk = true := by
    decide +kernel
  cases hjudge : judge Sha1.digest (fun _ => "a") (Sha1.digest tinyInfo) tinyInfo with
  | error e =>
    rw [hjudge] at hok
    cases hok
  | ok m =>
    rw [hjudge] at hone
    exact ⟨m, hone, (judge_ok hjudge).2.2⟩

end XferRust.Swarm
