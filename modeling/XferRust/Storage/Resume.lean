import XferRust.Lib.Hex
import XferRust.Storage.Completion
import XferRust.Storage.ServingExact

/-! # The resume control file of a torrent

`save_resume` writes the durable bitfield into a control file; when the torrent is opened again,
`restore_resume` takes the bits back whose pieces the files on the disk are long enough for.  It
looks at every file of a piece, also at those that are not selected.
-/
namespace XferRust.Storage
open Tiling (total)
open PieceLayout (lastIndex)

/-! ## The file -/

namespace Resume

def version : UInt32 := 1

def kind : String := "bt-resume"

structure ResumeDoc where
  v : UInt32
  kind : String
  /-- `info_hash`, in hexadecimal digits. -/
  infoHash : String
  /-- `piece_count`. -/
  pieceCount : UInt32
  /-- In hexadecimal digits. -/
  bitfield : String
  /-- `saved_at`. -/
  savedAt : UInt64

/-- The document that `save` writes. -/
def document (infoHash : List UInt8) (pieceCount : UInt32) (bitfield : List UInt8)
    (now : UInt64) : ResumeDoc where
  v := version
  kind := kind
  infoHash := Hex.encode infoHash
  pieceCount := pieceCount
  bitfield := Hex.encode bitfield
  savedAt := now

/-- `load`, of a file with this content; `parse` reads the JSON text. -/
def load (parse : List UInt8 → Option ResumeDoc) (ctrl : Option (List UInt8))
    (infoHash : List UInt8) (pieceCount : UInt32) : Option (List UInt8) := do
  let bytes ← ctrl
  let doc ← parse bytes
  if doc.v ≠ version ∨ doc.kind ≠ kind then none
  else if doc.infoHash ≠ Hex.encode infoHash ∨ doc.pieceCount ≠ pieceCount then none
  else
    let bf ← Hex.decode doc.bitfield
    if bf.length ≠ (pieceCount.toNat + 7) / 8 then none else some bf

/-- **Round trip.**  What was saved is loaded, where the JSON text is read as it was written. -/
theorem load_saved {parse : List UInt8 → Option ResumeDoc} {bytes infoHash bitfield : List UInt8}
    {pieceCount : UInt32} {now : UInt64}
    (hparse : parse bytes = some (document infoHash pieceCount bitfield now))
    (hlen : bitfield.length = (pieceCount.toNat + 7) / 8) :
    load parse (some bytes) infoHash pieceCount = some bitfield := by
  have hkind : ¬ ((document infoHash pieceCount bitfield now).v ≠ version ∨
      (document infoHash pieceCount bitfield now).kind ≠ kind) := fun h => h.elim (· rfl) (· rfl)
  have hmine : ¬ ((document infoHash pieceCount bitfield now).infoHash ≠ Hex.encode infoHash ∨
      (document infoHash pieceCount bitfield now).pieceCount ≠ pieceCount) := fun h =>
    h.elim (· rfl) (· rfl)
  rw [load, Option.bind_eq_bind, Option.bind_some, hparse, Option.bind_eq_bind, Option.bind_some,
    if_neg hkind, if_neg hmine]
  show (Hex.decode (Hex.encode bitfield)).bind _ = _
  rw [Hex.decode_hex, Option.bind_some, if_neg (not_not_intro hlen)]

end Resume

/-! ## Bits -/

theorem hasBit_clear (bits : List UInt8) (i j : UInt32) :
    hasBit (bits.modify (i / 8).toNat fun byte => byte &&& ~~~bitMask i) j = true ↔
      hasBit bits j = true ∧ j ≠ i := by
  by_cases hij : j = i
  · subst hij
    refine ⟨fun h => ?_, fun h => absurd rfl h.2⟩
    unfold hasBit at h
    rw [List.getElem?_modify] at h
    cases hbyte : bits[(j / 8).toNat]? with
    | none =>
      rw [hbyte] at h
      cases h
    | some byte =>
      simp only [hbyte, Option.map_eq_map, Option.map_some, if_true] at h
      rw [UInt8.and_assoc, UInt8.not_and_self, UInt8.and_zero] at h
      exact absurd h (by decide)
  · have hkeep : hasBit (bits.modify (i / 8).toNat fun byte => byte &&& ~~~bitMask i) j =
        hasBit bits j := by
      unfold hasBit
      rw [List.getElem?_modify]
      cases bits[(j / 8).toNat]? with
      | none => rfl
      | some byte =>
        simp only [Option.map_eq_map, Option.map_some]
        split
        · rename_i hdiv
          have hmask : ~~~bitMask i &&& bitMask j = bitMask j := by
            rw [UInt8.and_comm]
            exact bitMask_and_not (bitMask_and (mod_ne_of_div_eq hdiv fun heq => hij heq.symm))
          rw [UInt8.and_assoc, hmask]
        · rfl
    rw [hkeep]
    exact ⟨fun h => ⟨h, hij⟩, And.left⟩

namespace PieceMap

theorem isSet_foldl {bf : List UInt8} {j : UInt32} {idxs : List Nat} {m : PieceMap} :
    (idxs.foldl (fun m idx => if idx < m.count.toNat && hasBit bf (UInt32.ofNat idx)
        then m.set (UInt32.ofNat idx) else m) m).isSet j = true ↔
      m.isSet j = true ∨ ∃ idx ∈ idxs, idx < m.count.toNat ∧
        hasBit bf (UInt32.ofNat idx) = true ∧ UInt32.ofNat idx = j := by
  induction idxs generalizing m with
  | nil => simp
  | cons idx rest ih =>
    rw [List.foldl_cons, ih]
    split
    · rename_i h
      rw [Bool.and_eq_true, decide_eq_true_eq] at h
      obtain ⟨hidx, hbit⟩ := h
      have hlt : UInt32.ofNat idx < m.count := by
        have := m.count.toNat_lt
        rw [UInt32.lt_iff_toNat_lt, UInt32.toNat_ofNat', Nat.mod_eq_of_lt (by omega)]
        exact hidx
      rw [m.set_count, isSet_set_of_lt hlt, Bool.or_eq_true, decide_eq_true_eq]
      constructor
      · rintro ((rfl | hm) | ⟨k, hk, h⟩)
        · exact .inr ⟨idx, List.mem_cons_self, hidx, hbit, rfl⟩
        · exact .inl hm
        · exact .inr ⟨k, List.mem_cons_of_mem _ hk, h⟩
      · rintro (hm | ⟨k, hk, h⟩)
        · exact .inl (.inr hm)
        · rcases List.mem_cons.mp hk with rfl | hk
          · exact .inl (.inl h.2.2)
          · exact .inr ⟨k, hk, h⟩
    · rename_i hskip
      refine or_congr_right ⟨fun ⟨k, hk, h⟩ => ⟨k, List.mem_cons_of_mem _ hk, h⟩, ?_⟩
      rintro ⟨k, hk, hlt, hbit, heq⟩
      rcases List.mem_cons.mp hk with rfl | hk
      · exact absurd (by rw [Bool.and_eq_true, decide_eq_true_eq]; exact ⟨hlt, hbit⟩) hskip
      · exact ⟨k, hk, hlt, hbit, heq⟩

/-- The bits of a map after `set_from_bitfield`. -/
theorem isSet_setFromBitfield_iff {m : PieceMap} {bf : List UInt8} {j : UInt32} :
    (m.setFromBitfield bf).isSet j = true ↔
      m.isSet j = true ∨ j < m.count ∧ hasBit bf j = true := by
  rw [setFromBitfield, isSet_foldl]
  refine or_congr_right ⟨?_, ?_⟩
  · rintro ⟨idx, -, hlt, hbit, rfl⟩
    refine ⟨?_, hbit⟩
    have := m.count.toNat_lt
    rw [UInt32.lt_iff_toNat_lt, UInt32.toNat_ofNat', Nat.mod_eq_of_lt (by omega)]
    exact hlt
  · rintro ⟨hlt, hbit⟩
    refine ⟨j.toNat, List.mem_range.mpr ?_, UInt32.lt_iff_toNat_lt.mp hlt, ?_, UInt32.ofNat_toNat⟩
    · unfold hasBit at hbit
      split at hbit
      · cases hbit
      · rename_i byte hbyte
        have := (List.getElem?_eq_some_iff.mp hbyte).1
        rw [UInt32.toNat_div] at this
        change j.toNat / 8 < _ at this
        omega
    · rw [UInt32.ofNat_toNat]
      exact hbit

end PieceMap

/-! ## Restoring -/

variable {F : Type}

namespace PieceStore

/-- The loop that clears the bits of the pieces which the files are too short for, and counts the
others; `len` gives the length of each file. -/
def maskFrom (l : PieceLayout) (len : Nat → Nat) :
    List UInt32 → List UInt8 → Nat → Option (List UInt8 × Nat)
  | [], bf, restored => some (bf, restored)
  | idx :: rest, bf, restored =>
    if hasBit bf idx then do
      let segs ← l.pieceSegments idx
      if segs.all fun seg => seg.offset.toNat + seg.len.toNat ≤ len seg.file then
        maskFrom l len rest bf (restored + 1)
      else
        maskFrom l len rest (bf.modify (idx / 8).toNat fun byte => byte &&& ~~~bitMask idx) restored
    else maskFrom l len rest bf restored

/-- The path of each file of the torrent, open or not. -/
def paths (resolve : List String → F) (name : String) (l : PieceLayout) : List F :=
  l.files.mapIdx fun i f => resolve (if l.isSingleFile && i == 0 then [name] else name :: f.path)

/-- What `metadata` tells of the files: lengths, and the space they take.  Both are zero of a file
that does not exist. -/
structure Metadata (F : Type) where
  len : F → Nat
  onDisk : F → Nat

/-- The length of file number `i`, as the lengths of all files are listed. -/
def lenAt (paths : List F) (m : Metadata F) (i : Nat) : Nat :=
  match paths[i]? with
  | none => 0
  | some file => m.len file

/-- `restore_resume`, as on unix.  `scarce` is the comparison of the space on the disk with what
the bits imply, which the source makes with floating-point numbers. -/
def restoreResume (parse : List UInt8 → Option Resume.ResumeDoc) (scarce : Nat → UInt64 → Bool)
    (resolve : List String → F) (name : String) (m : Metadata F) (ctrl : Option (List UInt8))
    (infoHash : List UInt8) (s : PieceStore F) : Option (PieceStore F × Bool) :=
  let count := s.map.count
  match Resume.load parse ctrl infoHash count with
  | none => some (s, false)
  | some bf => do
    let files := paths resolve name s.layout
    let implied ← s.layout.lengthsFrom (lastIndex count) (hasBit bf) 0 (indices count)
    if implied > 0 && scarce (total m.onDisk files) implied then some (s, false)
    else
      let (bf, restored) ← maskFrom s.layout (lenAt files m) (indices count) bf 0
      if restored = 0 then some (s, false) else some (s.setBitfield bf, true)

/-- What `save_resume` writes of a store, when the write ends well; `print` writes JSON text. -/
def savedResume (print : Resume.ResumeDoc → List UInt8) (infoHash : List UInt8) (now : UInt64)
    (s : PieceStore F) : List UInt8 :=
  print (Resume.document infoHash s.map.count s.durableBitfield now)

/-! ## What is restored -/

/-- The files have a length that reaches behind the piece. -/
def Long (l : PieceLayout) (len : Nat → Nat) (index : UInt32) : Prop :=
  ∀ segs, l.pieceSegments index = some segs →
    ∀ seg ∈ segs, seg.offset.toNat + seg.len.toNat ≤ len seg.file

theorem maskFrom_spec {l : PieceLayout} {len : Nat → Nat} {idxs : List UInt32} {bf : List UInt8}
    (hsegs : ∀ i ∈ idxs, hasBit bf i = true → ∃ segs, l.pieceSegments i = some segs) (r : Nat) :
    ∃ bf' n, maskFrom l len idxs bf r = some (bf', n) ∧ bf'.length = bf.length ∧
      (∀ j, hasBit bf' j = true ↔ hasBit bf j = true ∧ (j ∈ idxs → Long l len j)) ∧
      r ≤ n ∧ (n = r ↔ ∀ j ∈ idxs, hasBit bf' j = false) := by
  induction idxs generalizing bf r with
  | nil =>
    exact ⟨bf, r, rfl, rfl, fun j => ⟨fun h => ⟨h, nofun⟩, And.left⟩, Nat.le_refl r,
      ⟨fun _ j hj => (by cases hj), fun _ => rfl⟩⟩
  | cons idx rest ih =>
    rw [maskFrom]
    by_cases hbit : hasBit bf idx = true
    · obtain ⟨segs, hpiece⟩ := hsegs idx List.mem_cons_self hbit
      have hlong : Long l len idx ↔
          segs.all (fun seg => seg.offset.toNat + seg.len.toNat ≤ len seg.file) = true := by
        rw [List.all_eq_true]
        refine ⟨fun h seg hseg => decide_eq_true (h segs hpiece seg hseg), fun h segs' h' => ?_⟩
        obtain rfl := Option.some.inj (hpiece.symm.trans h')
        exact fun seg hseg => of_decide_eq_true (h seg hseg)
      rw [if_pos hbit, hpiece, Option.bind_eq_bind, Option.bind_some]
      split
      · rename_i hall
        have hidx := hlong.mpr hall
        obtain ⟨bf', n, hmask, hlen, hbits, hle, -⟩ :=
          ih (fun i hi => hsegs i (List.mem_cons_of_mem _ hi)) (r + 1)
        refine ⟨bf', n, hmask, hlen, fun j => (hbits j).trans (and_congr_right fun _ =>
          ⟨fun h hj => ?_, fun h hj => h (List.mem_cons_of_mem _ hj)⟩), by omega,
          fun h => by omega, fun h => ?_⟩
        · rcases List.mem_cons.mp hj with rfl | hj
          · exact hidx
          · exact h hj
        · have := h idx List.mem_cons_self
          rw [(hbits idx).mpr ⟨hbit, fun _ => hidx⟩] at this
          cases this
      · rename_i hall
        have hshort : ¬ Long l len idx := fun h => hall (hlong.mp h)
        obtain ⟨bf', n, hmask, hlen, hbits, hle, hzero⟩ := @ih
          (bf.modify (idx / 8).toNat fun byte => byte &&& ~~~bitMask idx)
          (fun i hi h => hsegs i (List.mem_cons_of_mem _ hi) ((hasBit_clear bf idx i).mp h).1) r
        have hbits' : ∀ j, hasBit bf' j = true ↔
            hasBit bf j = true ∧ (j ∈ idx :: rest → Long l len j) := by
          intro j
          rw [hbits j, hasBit_clear]
          constructor
          · rintro ⟨⟨hj, hne⟩, h⟩
            exact ⟨hj, fun hmem => h ((List.mem_cons.mp hmem).resolve_left hne)⟩
          · rintro ⟨hj, h⟩
            refine ⟨⟨hj, ?_⟩, fun hmem => h (List.mem_cons_of_mem _ hmem)⟩
            rintro rfl
            exact hshort (h List.mem_cons_self)
        refine ⟨bf', n, hmask, hlen.trans (List.length_modify _ _ _), hbits', hle, hzero.trans
          ⟨fun h j hj => ?_, fun h j hj => h j (List.mem_cons_of_mem _ hj)⟩⟩
        rcases List.mem_cons.mp hj with rfl | hj
        · refine Bool.eq_false_iff.mpr fun htrue => ?_
          exact hshort (((hbits' j).mp htrue).2 List.mem_cons_self)
        · exact h j hj
    · rw [if_neg hbit]
      obtain ⟨bf', n, hmask, hlen, hbits, hle, hzero⟩ :=
        ih (fun i hi => hsegs i (List.mem_cons_of_mem _ hi)) r
      have hidx : hasBit bf' idx = false :=
        Bool.eq_false_iff.mpr fun htrue => hbit ((hbits idx).mp htrue).1
      refine ⟨bf', n, hmask, hlen, fun j => (hbits j).trans (and_congr_right fun hj =>
        ⟨fun h hmem => ?_, fun h hmem => h (List.mem_cons_of_mem _ hmem)⟩), hle, hzero.trans
        ⟨fun h j hj => ?_, fun h j hj => h j (List.mem_cons_of_mem _ hj)⟩⟩
      · refine h ((List.mem_cons.mp hmem).resolve_left ?_)
        rintro rfl
        exact hbit hj
      · rcases List.mem_cons.mp hj with rfl | hj
        · exact hidx
        · exact h j hj

theorem Opened.counted {s : PieceStore F} (ho : s.Opened)
    (hpl : 0 < s.layout.pieceLength.toNat) : s.layout.Counted s.map.count := by
  refine ⟨ho.sited.placed, ho.sited.size, hpl, fun i => ⟨fun hi => ?_, fun hi => ?_⟩⟩
  · have hstart := ((ho.starts _).mp (PieceMap.ofNat_lt hi)).2
    rwa [pieceStart, PieceMap.toNat_ofNat hi] at hstart
  · -- the piece behind the last one would start behind all bytes
    refine Nat.lt_of_not_le fun hle => ?_
    have hend := mt (ho.starts s.map.count).mpr (UInt32.lt_irrefl _)
    have hmul := Nat.mul_le_mul_right s.layout.pieceLength.toNat hle
    exact hend ⟨hpl, Nat.lt_of_le_of_lt hmul hi⟩

/-- The sum of what is implied does not overflow. -/
theorem Opened.exists_implied {s : PieceStore F} (ho : s.Opened) (bf : List UInt8) :
    ∃ implied, s.layout.lengthsFrom (lastIndex s.map.count) (hasBit bf) 0 (indices s.map.count) =
      some implied := by
  by_cases hpl : 0 < s.layout.pieceLength.toNat
  · obtain ⟨sum, hsum, -⟩ := (ho.counted hpl).lengthsFrom (hasBit bf)
    exact ⟨sum, hsum⟩
  · -- there is no piece
    have hnone : indices s.map.count = [] := List.eq_nil_iff_forall_not_mem.mpr fun i hi =>
      hpl ((ho.starts i).mp (mem_indices.mp hi)).1
    rw [hnone]
    exact ⟨0, rfl⟩

/-- The piece is on the disk: each open file has a length that reaches behind what it has of the
piece. -/
def Landed (s : PieceStore F) (index : UInt32) : Prop :=
  ∃ segs, s.layout.pieceSegments index = some segs ∧ ∀ seg ∈ segs, ∀ file,
    s.files[seg.file]? = some (some file) →
      seg.offset.toNat + seg.len.toNat ≤ (s.disk.content file).length

/-- All pieces that are done have left the cache for the disk. -/
structure Settled (s : PieceStore F) : Prop where
  empty : s.writeCache = []
  landed : ∀ i, s.map.isSet i = true → s.Landed i

/-- The condition of a full restoration: what a piece that is done has in files that are not open
is covered by the length that these have, and the files take space enough. -/
def Restorable (scarce : Nat → UInt64 → Bool) (resolve : List String → F) (name : String)
    (m : Metadata F) (s : PieceStore F) : Prop :=
  ∀ i, s.map.isSet i = true →
    (∀ segs, s.layout.pieceSegments i = some segs → ∀ seg ∈ segs,
      s.files[seg.file]? = some none →
        seg.offset.toNat + seg.len.toNat ≤ lenAt (paths resolve name s.layout) m seg.file) ∧
    ∀ implied, s.layout.lengthsFrom (lastIndex s.map.count) (hasBit s.bitfield) 0 (indices s.map.count) =
      some implied → 0 < implied →
        scarce (total m.onDisk (paths resolve name s.layout)) implied = false

theorem Settled.bitfield {s : PieceStore F} (hs : s.Settled) : s.durableBitfield = s.bitfield := by
  rw [durableBitfield, hs.empty, List.isEmpty_nil, Bool.or_true, if_pos rfl]

theorem hasBit_bitfield {s : PieceStore F} {i : UInt32} (hi : i < s.map.count) :
    hasBit s.bitfield i = s.map.isSet i := by
  rw [PieceMap.isSet, if_neg (UInt32.not_le.mpr hi)]
  rfl

/-- What a restoration comes to. -/
theorem restoreResume_spec {parse : List UInt8 → Option Resume.ResumeDoc}
    {scarce : Nat → UInt64 → Bool} {resolve : List String → F} {name : String} {m : Metadata F}
    {ctrl : Option (List UInt8)} {infoHash : List UInt8} {s₀ s : PieceStore F} (ho : s₀.Opened)
    (hshape : SameShape s₀ s) (hs : s.Settled)
    (hload : Resume.load parse ctrl infoHash s₀.map.count = some s.bitfield) :
    ∃ t ok, restoreResume parse scarce resolve name m ctrl infoHash s₀ = some (t, ok) ∧
      ∀ i, t.map.isSet i = true ↔ s.map.isSet i = true ∧
        Long s.layout (lenAt (paths resolve name s.layout) m) i ∧
        ∀ implied, s.layout.lengthsFrom (lastIndex s.map.count) (hasBit s.bitfield) 0
          (indices s.map.count) = some implied → 0 < implied →
            scarce (total m.onDisk (paths resolve name s.layout)) implied = false := by
  obtain ⟨implied, himplied⟩ := ho.exists_implied s.bitfield
  have hbits : ∀ {i}, i < s.map.count → hasBit s.bitfield i = s.map.isSet i := hasBit_bitfield
  obtain ⟨bf, n, hmask, hlen, hbf, -, hzero⟩ := @maskFrom_spec s₀.layout
    (lenAt (paths resolve name s₀.layout) m) (indices s₀.map.count) s.bitfield (fun i hi hbit => by
      rw [mem_indices, ← hshape.count] at hi
      rw [hbits hi] at hbit
      obtain ⟨segs, hsegs, -⟩ := hs.landed i hbit
      exact ⟨segs, hshape.layout ▸ hsegs⟩) 0
  rw [restoreResume]
  simp only [hload, himplied, hmask, Option.bind_eq_bind, Option.bind_some]
  rw [hshape.layout, hshape.count]
  split
  · -- too little space on the disk: nothing is restored
    rename_i hscarce
    rw [Bool.and_eq_true, decide_eq_true_eq] at hscarce
    refine ⟨s₀, false, rfl, fun i => ⟨fun h => ?_, fun ⟨_, _, h⟩ => ?_⟩⟩
    · rw [ho.fresh i] at h
      cases h
    · have := h implied himplied hscarce.1
      rw [hscarce.2] at this
      cases this
  · rename_i henough
    have henough : ∀ implied', s₀.layout.lengthsFrom (lastIndex s₀.map.count) (hasBit s.bitfield) 0
        (indices s₀.map.count) = some implied' → 0 < implied' →
          scarce (total m.onDisk (paths resolve name s₀.layout)) implied' = false := by
      intro implied' h hpos
      obtain rfl := Option.some.inj (himplied.symm.trans h)
      refine Bool.eq_false_iff.mpr fun htrue => henough ?_
      rw [Bool.and_eq_true, decide_eq_true_eq]
      exact ⟨hpos, htrue⟩
    have hkept : ∀ i, i < s₀.map.count → (hasBit bf i = true ↔ s.map.isSet i = true ∧
        Long s₀.layout (lenAt (paths resolve name s₀.layout) m) i) := by
      intro i hi
      rw [hbf i, hbits (hshape.count ▸ hi)]
      exact and_congr_right fun _ => ⟨fun h => h (mem_indices.mpr hi), fun h _ => h⟩
    split
    · rename_i hnone
      refine ⟨s₀, false, rfl, fun i => ⟨fun h => ?_, fun ⟨hset, hlong, _⟩ => ?_⟩⟩
      · rw [ho.fresh i] at h
        cases h
      · have hi : i < s₀.map.count := hshape.count ▸ PieceMap.lt_count hset
        have := hzero.mp hnone i (mem_indices.mpr hi)
        rw [(hkept i hi).mpr ⟨hset, hlong⟩] at this
        cases this
    · have hsize : bf.length = (s₀.map.count.toNat + 7) / 8 := by
        rw [hlen, ← hshape.count]
        exact s.map.size
      refine ⟨_, true, rfl, fun i => ?_⟩
      rw [setBitfield, if_pos hsize]
      rw [PieceMap.isSet_setFromBitfield_iff, ho.fresh i]
      constructor
      · rintro (h | ⟨hi, hbit⟩)
        · cases h
        · obtain ⟨hset, hlong⟩ := (hkept i hi).mp hbit
          exact ⟨hset, hlong, henough⟩
      · rintro ⟨hset, hlong, -⟩
        have hi : i < s₀.map.count := hshape.count ▸ PieceMap.lt_count hset
        exact .inr ⟨hi, (hkept i hi).mpr ⟨hset, hlong⟩⟩

/-- The file behind an open handle is the one at its path. -/
theorem paths_of_open {resolve : List String → F} {name : String} {layout : PieceLayout}
    {wanted : Option (List Nat)} {disk : Disk F} {s : PieceStore F}
    (hopen : openAt resolve name layout wanted disk = some s) {i : Nat} {file : F}
    (hfile : s.files[i]? = some (some file)) : (paths resolve name s.layout)[i]? = some file := by
  obtain ⟨count, -, hopen⟩ := Option.bind_eq_some_iff.mp hopen
  obtain rfl := Option.some.inj hopen
  dsimp only at hfile
  rw [List.getElem?_mapIdx] at hfile
  obtain ⟨f, hf, hslot⟩ := Option.map_eq_some_iff.mp hfile
  obtain ⟨-, hslot⟩ := Option.ite_none_right_eq_some.mp hslot
  rw [paths, List.getElem?_mapIdx, hf, ← Option.some.inj hslot, Option.map_some]
  -- a single file is the first one
  by_cases hsingle : layout.isSingleFile = true
  · have hi : i = 0 := by
      have hlen := (List.getElem?_eq_some_iff.mp hf).1
      have hone := hsingle
      rw [PieceLayout.isSingleFile, Bool.and_eq_true, beq_iff_eq] at hone
      omega
    rw [hi, hsingle]
    rfl
  · rw [Bool.eq_false_iff.mpr hsingle]
    rfl

/-- **What a restart keeps.**  A torrent opened again with the same selection, over open files
that have not changed since the control file was saved, has the same bits if and only if the other
files cover what the pieces that are done have in them, and the space on the disk is enough. -/
theorem restored_iff {print : Resume.ResumeDoc → List UInt8}
    {parse : List UInt8 → Option Resume.ResumeDoc} {scarce : Nat → UInt64 → Bool}
    {resolve : List String → F} {name : String} {pieceLength : UInt64}
    {files : List (List String × UInt64)} {layout : PieceLayout}
    (hnew : PieceLayout.new pieceLength files = some layout) {multiFile : Bool}
    {wanted : Option (List Nat)} {disk : Disk F} {s₀ s : PieceStore F}
    (hopen : openAt resolve name (layout.withMultiFile multiFile) wanted disk = some s₀)
    (hshape : SameShape s₀ s) (hsettled : s.Settled) {infoHash : List UInt8} {now : UInt64}
    (hjson : parse (print (Resume.document infoHash s.map.count s.durableBitfield now)) =
      some (Resume.document infoHash s.map.count s.durableBitfield now))
    {m : Metadata F}
    (hunchanged : ∀ (i : Nat) (file : F), s.files[i]? = some (some file) →
      m.len file = (s.disk.content file).length) :
    (∃ t ok, restoreResume parse scarce resolve name m (some (savedResume print infoHash now s))
        infoHash s₀ = some (t, ok) ∧ ∀ i, t.map.isSet i = s.map.isSet i) ↔
      Restorable scarce resolve name m s := by
  have ho := openAt_opened hnew hopen
  have hload : Resume.load parse (some (savedResume print infoHash now s)) infoHash s₀.map.count =
      some s.bitfield := by
    rw [← hshape.count, ← hsettled.bitfield]
    refine Resume.load_saved hjson ?_
    rw [hsettled.bitfield]
    exact s.map.size
  obtain ⟨t, ok, hrestore, hbits⟩ := @restoreResume_spec F parse scarce resolve name m _ infoHash
    s₀ s ho hshape hsettled hload
  -- the open files are long enough: they hold the pieces
  have hlong : ∀ i, s.map.isSet i = true →
      (Long s.layout (lenAt (paths resolve name s.layout) m) i ↔
        ∀ segs, s.layout.pieceSegments i = some segs → ∀ seg ∈ segs,
          s.files[seg.file]? = some none →
            seg.offset.toNat + seg.len.toNat ≤ lenAt (paths resolve name s.layout) m seg.file) := by
    intro i hi
    obtain ⟨segs, hsegs, hland⟩ := hsettled.landed i hi
    refine ⟨fun h segs' h' seg hseg _ => h segs' h' seg hseg, fun h segs' h' seg hseg => ?_⟩
    obtain rfl := Option.some.inj (hsegs.symm.trans h')
    cases hslot : s.files[seg.file]? with
    | none =>
      -- every segment is in a file of the layout
      obtain ⟨_, _, hfrom, -⟩ := PieceLayout.pieceSegments_eq_some hsegs
      obtain ⟨k, f, hk, hfile, -⟩ := (PieceLayout.mem_segmentsFrom hfrom).mp hseg
      have hk := (List.getElem?_eq_some_iff.mp hk).1
      have hlen := ho.sited.handles
      rw [← hshape.files, ← hshape.layout] at hlen
      have := List.getElem?_eq_none_iff.mp hslot
      omega
    | some slot =>
      cases slot with
      | none => exact h segs hsegs seg hseg hslot
      | some file =>
        have hpath : (paths resolve name s.layout)[seg.file]? = some file := by
          rw [hshape.layout]
          exact paths_of_open hopen (hshape.files ▸ hslot)
        rw [lenAt, hpath]
        dsimp only
        rw [hunchanged seg.file file hslot]
        exact hland seg hseg file hslot
  constructor
  · rintro ⟨t', ok', hrestore', hsame⟩ i hi
    obtain ⟨rfl, -⟩ := Prod.mk.inj (Option.some.inj (hrestore.symm.trans hrestore'))
    obtain ⟨-, hlen, henough⟩ := (hbits i).mp ((hsame i).trans hi)
    exact ⟨(hlong i hi).mp hlen, henough⟩
  · intro h
    refine ⟨t, ok, hrestore, fun i => Bool.eq_iff_iff.mpr ((hbits i).trans
      ⟨And.left, fun hi => ⟨hi, (hlong i hi).mpr (h i hi).1, (h i hi).2⟩⟩)⟩

/-! ## Runs that settle -/

theorem Landed.grows {s : PieceStore F} {index : UInt32} (h : s.Landed index) {disk : Disk F}
    (hgrows : ∀ file, (s.disk.content file).length ≤ (disk.content file).length) :
    Landed { s with disk } index := by
  obtain ⟨segs, hsegs, hland⟩ := h
  exact ⟨segs, hsegs, fun seg hseg file hfile =>
    Nat.le_trans (hland seg hseg file hfile) (hgrows file)⟩

/-- A piece that is written to its end is on the disk. -/
theorem Lands.landed {s : PieceStore F} (hs : s.Sited) {index : UInt32} {data : List UInt8}
    {disk : Disk F} {done : Prop} (h : s.Lands index data disk done) (hdone : done)
    (hpos : 0 < s.layout.pieceSize index)
    (hsegs : (s.layout.pieceSegments index).isSome = true) : Landed { s with disk } index := by
  obtain ⟨segs, hsegs⟩ := Option.isSome_iff_exists.mp hsegs
  obtain ⟨ps, pe, hfrom, hps, hpe, -⟩ := PieceLayout.pieceSegments_eq_some hsegs
  refine ⟨segs, hsegs, fun seg hseg file hfile => ?_⟩
  obtain ⟨k, f, hk, hindex, hlo, hhi, hoff, hend⟩ :=
    (PieceLayout.mem_segmentsFrom hfrom).mp hseg
  rw [Nat.zero_add] at hindex
  have hbounds := hs.placed.bounds hk
  by_cases hempty : seg.len.toNat = 0
  · -- only an empty file gives an empty part
    unfold PieceLayout.pieceSize at hpos
    omega
  · -- the last byte of the part has been written
    have hlast : s.Belongs index file (seg.offset.toNat + seg.len.toNat - 1)
        (f.offset.toNat + (seg.offset.toNat + seg.len.toNat - 1)) := by
      refine ⟨?_, ?_, ?_⟩
      · refine ((covers_iff (a := 0) (b := pe.toNat) hs.placed).mp
          ⟨k, f, hk, ?_, ?_, rfl, ?_, ?_⟩).1
        · rwa [Nat.zero_add, ← hindex]
        · omega
        · exact Nat.zero_le _
        · omega
      · unfold pieceStart
        omega
      · unfold pieceStart
        omega
    obtain ⟨_, _, _, _, _, hget⟩ := h.last hdone _ _ _ hlast
    have := (List.getElem?_eq_some_iff.mp hget).1
    show seg.offset.toNat + seg.len.toNat ≤ (disk.content file).length
    omega

/-- The pieces of `P` are in the cache or on the disk. -/
structure Backed (P : UInt32 → Prop) (s : PieceStore F) : Prop where
  fits : ∀ c ∈ s.writeCache, c.data.length = s.layout.pieceSize c.index
  landed : ∀ i, P i → (∀ c ∈ s.writeCache, c.index ≠ i) → s.Landed i

theorem Backed.congr {P : UInt32 → Prop} {s s' : PieceStore F} (h : Backed P s)
    (hlayout : s'.layout = s.layout) (hfiles : s'.files = s.files)
    (hdisk : s'.disk.content = s.disk.content) (hcache : s'.writeCache = s.writeCache) :
    Backed P s' := by
  obtain ⟨layout, files, ⟨content, outcomes⟩, map, cache, bytes, limit⟩ := s
  obtain ⟨layout', files', ⟨content', outcomes'⟩, map', cache', bytes', limit'⟩ := s'
  subst hlayout hfiles hdisk hcache
  exact ⟨h.fits, h.landed⟩

variable [DecidableEq F]

theorem drain_backed {P : UInt32 → Prop} {more : Nat → Bool} {cache : List CachedPiece}
    {s s' : PieceStore F} {r : Except IoError Unit} (hs : s.Sited)
    (hpos : ∀ i, P i → 0 < s.layout.pieceSize i) (h : Backed P { s with writeCache := cache })
    (hd : drain more cache s = some (s', r)) : Backed P s' := by
  obtain ⟨hshape, -⟩ := drain_spec hd
  refine Backed.congr (s := { s with writeCache := s'.writeCache, disk := s'.disk }) ?_
    hshape.layout hshape.files rfl rfl
  refine drain_rule (I := fun cache content =>
    Backed P { s with writeCache := cache, disk := { content, outcomes := [] } }) hs h.fits
    (fun oldest rest content disk done hback hsegs hlands => ?_) (h.congr rfl rfl rfl rfl) hd
    |>.congr rfl rfl rfl rfl
  have hkeep : ∀ i, P i → (∀ c ∈ oldest :: rest, c.index ≠ i) → Landed { s with disk } i :=
    fun i hi hno => (hback.landed i hi hno).grows hlands.grows
  refine ⟨⟨hback.fits, hkeep⟩, fun hdone =>
    ⟨fun c hc => hback.fits c (List.mem_cons_of_mem _ hc), fun i hi hno => ?_⟩⟩
  by_cases hmine : oldest.index = i
  · subst hmine
    exact Lands.landed (s := { s with disk := { content, outcomes := [] } })
      ⟨hs.placed, hs.size, hs.handles⟩ hlands hdone (hpos _ hi) hsegs
  · refine hkeep i hi fun c hc => ?_
    rcases List.mem_cons.mp hc with rfl | hc
    · exact hmine
    · exact hno c hc

/-- `write_piece`, if it ends well, backs its piece. -/
theorem writePiece_backed {P : UInt32 → Prop} {s s' : PieceStore F} {index : UInt32}
    {data : List UInt8} {r : Except IoError Unit} (hs : s.Sited) (ht : s.Tidy)
    (hpos : ∀ i, P i → 0 < s.layout.pieceSize i) (h : Backed P s)
    (hlen : data.length = s.layout.pieceSize index)
    (hcall : s.writePiece index data = some (s', r)) :
    Backed P s' ∧
      (r = .ok () → Backed (fun i => P i ∨ i = index ∧ 0 < s.layout.pieceSize i) s') := by
  obtain ⟨disk, rfl, hsegs, hlands⟩ | ⟨cache, bytes, more, hmem, hdrain⟩ :=
    writePiece_cases hs ht hlen hcall
  · have hkeep : ∀ i, P i → (∀ c ∈ s.writeCache, c.index ≠ i) → Landed { s with disk } i :=
      fun i hi hno => (h.landed i hi hno).grows hlands.grows
    refine ⟨⟨h.fits, hkeep⟩, fun hr => ⟨h.fits, fun i hi hno => ?_⟩⟩
    rcases hi with hi | ⟨rfl, hsize⟩
    · exact hkeep i hi hno
    · exact hlands.landed hs hr hsize hsegs
  · have hpush : Backed (fun i => P i ∨ i = index ∧ 0 < s.layout.pieceSize i)
        { s with
          writeCache := cache ++ [{ index, data }]
          writeCacheBytes := bytes } := by
      refine ⟨fun c hc => ?_, fun i hi hno => ?_⟩
      · rcases List.mem_append.mp hc with hc | hc
        · exact h.fits c ((hmem c).mp hc).1
        · obtain rfl := List.mem_singleton.mp hc
          exact hlen
      · have hne : i ≠ index := fun heq =>
          hno _ (List.mem_append_right _ List.mem_cons_self) heq.symm
        refine h.landed i (hi.resolve_right fun h => hne h.1) fun c hc hindex => ?_
        exact hno c (List.mem_append_left _ ((hmem c).mpr ⟨hc, hindex ▸ hne⟩)) hindex
    have hback := drain_backed (s := { s with
        writeCache := cache ++ [{ index, data }]
        writeCacheBytes := bytes }) ⟨hs.placed, hs.size, hs.handles⟩
      (fun i hi => hi.elim (hpos i) And.right) hpush hdrain
    exact ⟨⟨hback.fits, fun i hi => hback.landed i (.inl hi)⟩, fun _ => hback⟩

end PieceStore

namespace Seeder
variable [DecidableEq F] {Hash : Type} [DecidableEq Hash] {sha1 : List UInt8 → Hash}
  {hashes : UInt32 → Hash}

/-- What `set_bitfield` sets is on the disk: it was restored by the lengths of the files, or read
from them. -/
def SetsLanded (t : Seeder F) (e : EngineCall × List Outcome) : Prop :=
  ∀ bf, e.1 = .setBitfield bf → ∀ i, i < t.store.map.count → hasBit bf i = true →
    t.store.Landed i

/-- What holds in every state of a run from the store `s₀`: what is done is in the cache or on the
disk. -/
structure Sound (s₀ : PieceStore F) (t : Seeder F) : Prop where
  shape : PieceStore.SameShape s₀ t.store
  tidy : t.store.Tidy
  backed : PieceStore.Backed (fun i => t.store.map.isSet i = true) t.store

theorem step_sound {s₀ : PieceStore F} (ho : s₀.Opened) {t t' : Seeder F}
    {e : EngineCall × List Outcome} (h : Sound s₀ t) (hset : SetsLanded t e)
    (hstep : step sha1 hashes t e = some t') : Sound s₀ t' := by
  obtain ⟨call, os⟩ := e
  have hs : t.store.Sited := ho.sited.of_same h.shape.layout h.shape.files
  have hpos : ∀ i, t.store.map.isSet i = true → 0 < t.store.layout.pieceSize i := by
    intro i hi
    obtain ⟨hpl, hstart⟩ := (ho.starts i).mp (h.shape.count ▸ PieceMap.lt_count hi)
    rw [h.shape.layout]
    unfold PieceLayout.pieceSize
    unfold PieceStore.pieceStart at hstart
    omega
  -- the outcomes of the disk are new
  let s : PieceStore F := { t.store with disk := { t.store.disk with outcomes := os } }
  have hs' : s.Sited := ⟨hs.placed, hs.size, hs.handles⟩
  have htidy : s.Tidy := ⟨h.tidy.bytes, h.tidy.unique⟩
  have hback : PieceStore.Backed (fun i => t.store.map.isSet i = true) s :=
    h.backed.congr rfl rfl rfl rfl
  have hshape : PieceStore.SameShape s₀ s := ⟨h.shape.layout, h.shape.files, h.shape.count⟩
  cases call with
  | accept index data =>
    dsimp only [step] at hstep
    split at hstep
    · cases hstep
    · rename_i hlen
      obtain ⟨n, hn, hlen⟩ := Option.map_eq_some_iff.mp (Decidable.not_not.mp hlen)
      rw [PieceLayout.pieceLen_eq_some hn] at hlen
      obtain ⟨⟨u, ok⟩, hcall, rfl⟩ := Option.map_eq_some_iff.mp hstep
      suffices hu : Sound s₀ ⟨u, t.accepted⟩ by
        exact ⟨hu.shape, hu.tidy, hu.backed⟩
      unfold PieceStore.acceptPiece at hcall
      split at hcall
      · obtain ⟨rfl, -⟩ := Prod.mk.inj (Option.some.inj hcall)
        exact ⟨hshape, htidy, hback⟩
      · split at hcall
        · obtain ⟨rfl, -⟩ := Prod.mk.inj (Option.some.inj hcall)
          exact ⟨hshape, htidy, hback⟩
        · split at hcall
          · cases hcall
          · rename_i v hwrite
            obtain ⟨rfl, -⟩ := Prod.mk.inj (Option.some.inj hcall)
            obtain ⟨hcache, -, -⟩ := PieceStore.writePiece_spec htidy hwrite
            obtain ⟨-, hnow⟩ := PieceStore.writePiece_backed hs' htidy hpos hback hlen.symm hwrite
            have hnow := hnow rfl
            refine ⟨hshape.trans ⟨hcache.shape.layout, hcache.shape.files,
              (PieceMap.set_count _ _).trans hcache.shape.count⟩,
              ⟨hcache.tidy.bytes, hcache.tidy.unique⟩, hnow.fits, fun i hi hno => ?_⟩
            refine hnow.landed i ?_ hno
            change (v.map.set index).isSet i = true at hi
            have hcount : v.map.count = s₀.map.count := hcache.shape.count.trans hshape.count
            by_cases hindex : index < v.map.count
            · rw [PieceMap.isSet_set_of_lt hindex, Bool.or_eq_true, decide_eq_true_eq] at hi
              rcases hi with rfl | hi
              · obtain ⟨hpl, hstart⟩ := (ho.starts index).mp (hcount ▸ hindex)
                refine .inr ⟨rfl, ?_⟩
                rw [hshape.layout]
                unfold PieceLayout.pieceSize
                unfold PieceStore.pieceStart at hstart
                omega
              · exact .inl (hcache.map ▸ hi)
            · rw [PieceMap.set, if_neg hindex] at hi
              exact .inl (hcache.map ▸ hi)
          · rename_i v e hwrite
            obtain ⟨rfl, -⟩ := Prod.mk.inj (Option.some.inj hcall)
            obtain ⟨hcache, -, -⟩ := PieceStore.writePiece_spec htidy hwrite
            obtain ⟨hkept, -⟩ := PieceStore.writePiece_backed hs' htidy hpos hback hlen.symm hwrite
            exact ⟨hshape.trans hcache.shape, hcache.tidy, hkept.fits, fun i hi =>
              hkept.landed i (hcache.map ▸ hi)⟩
  | setLimit bytes =>
    obtain ⟨⟨u, r⟩, hcall, rfl⟩ := Option.map_eq_some_iff.mp hstep
    obtain ⟨hcache, -⟩ := PieceStore.setWriteCacheLimit_spec htidy hcall
    have hkept := PieceStore.drain_backed (s := { s with cacheLimit := bytes })
      ⟨hs.placed, hs.size, hs.handles⟩ hpos (hback.congr rfl rfl rfl rfl) hcall
    exact ⟨hshape.trans hcache.shape, hcache.tidy, hkept.fits, fun i hi =>
      hkept.landed i (hcache.map ▸ hi)⟩
  | flushAll =>
    obtain ⟨⟨u, r⟩, hcall, rfl⟩ := Option.map_eq_some_iff.mp hstep
    obtain ⟨hcache, -, -⟩ := PieceStore.flushAll_spec htidy hcall
    obtain ⟨⟨v, r₁⟩, hflush, hsync⟩ := Option.bind_eq_some_iff.mp hcall
    have hkept := PieceStore.drain_backed hs' hpos hback hflush
    have hkept : PieceStore.Backed (fun i => t.store.map.isSet i = true) u := by
      cases r₁ with
      | error e =>
        obtain ⟨rfl, -⟩ := Prod.mk.inj (Option.some.inj hsync)
        exact hkept
      | ok _ =>
        obtain ⟨rfl, -⟩ := Prod.mk.inj (Option.some.inj hsync)
        exact hkept.congr rfl rfl (PieceStore.sync_content _ _) rfl
    exact ⟨hshape.trans hcache.shape, hcache.tidy, hkept.fits, fun i hi =>
      hkept.landed i (hcache.map ▸ hi)⟩
  | setBitfield bf =>
    obtain rfl := Option.some.inj hstep
    show Sound s₀ ⟨PieceStore.setBitfield s bf, t.accepted⟩
    unfold PieceStore.setBitfield
    split
    · refine ⟨⟨hshape.layout, hshape.files,
        (PieceMap.setFromBitfield_count _ _).trans hshape.count⟩, ⟨htidy.bytes, htidy.unique⟩,
        hback.fits, fun i hi hno => ?_⟩
      rcases PieceMap.isSet_setFromBitfield_iff.mp hi with hi | ⟨hlt, hbit⟩
      · exact hback.landed i hi hno
      · exact hset bf rfl i hlt hbit
    · exact ⟨hshape, htidy, hback⟩

/-- **Runs settle.**  In every run from a store just opened, under every pattern of failing
writes, the pieces that are done are on the disk as soon as the cache is empty. -/
theorem settled_of_run {s₀ : PieceStore F} (ho : s₀.Opened) {content : F → List UInt8}
    {es : List (EngineCall × List Outcome)} {t : Seeder F}
    (hset : StepRun.Along (step sha1 hashes) SetsLanded (.start s₀ content) es)
    (hrun : StepRun.run (step sha1 hashes) (.start s₀ content) es = some t)
    (hempty : t.store.writeCache = []) :
    PieceStore.SameShape s₀ t.store ∧ t.store.Settled := by
  have hstart : Sound s₀ (.start s₀ content) := by
    refine ⟨⟨rfl, rfl, rfl⟩, ⟨ho.tidy.bytes, ho.tidy.unique⟩, ⟨fun c hc => ?_, fun i hi => ?_⟩⟩
    · rw [show (Seeder.start s₀ content).store.writeCache = [] from ho.empty] at hc
      cases hc
    · rw [show (Seeder.start s₀ content).store.map = s₀.map from rfl, ho.fresh i] at hi
      cases hi
  have h := StepRun.run_invariant (I := Sound s₀) (P := SetsLanded)
    (fun s e s' hs he hstep => step_sound ho hs he hstep) hstart hset hrun
  refine ⟨h.shape, hempty, fun i hi => h.backed.landed i hi fun c hc => ?_⟩
  rw [hempty] at hc
  cases hc

end Seeder

/-! ## A piece of two files -/

namespace PieceStore

/-- The store over two files of which the second is not wanted, after the piece was accepted. -/
def boundaryPiece : PieceStore (List String) where
  layout := twoFiles
  files := [some ["t", "a"], none]
  disk := { content := fun file => if file = ["t", "a"] then [1, 2, 3, 4] else [], outcomes := [] }
  map := (PieceMap.new 1).set 0
  writeCache := []
  writeCacheBytes := 0
  cacheLimit := 0

theorem boundaryPiece_run : StepRun.run (Seeder.step id fun _ => [1, 2, 3, 4, 5, 6, 7, 8])
    (.start (halfOpen [some ["t", "a"], none]) fun _ => [])
    [(.accept 0 [1, 2, 3, 4, 5, 6, 7, 8], [])] =
      some ⟨boundaryPiece, [(0, [1, 2, 3, 4, 5, 6, 7, 8])]⟩ := rfl

theorem boundaryPiece_settled :
    SameShape (halfOpen [some ["t", "a"], none]) boundaryPiece ∧ boundaryPiece.Settled := by
  have hset : StepRun.Along (Seeder.step id fun _ => [1, 2, 3, 4, 5, 6, 7, 8]) Seeder.SetsLanded
      (.start (halfOpen [some ["t", "a"], none]) fun _ => [])
      [(.accept 0 [1, 2, 3, 4, 5, 6, 7, 8], [])] :=
    ⟨fun bf hbf => (by cases hbf), fun _ _ => trivial⟩
  exact Seeder.settled_of_run (openAt_opened twoFiles_new halfOpen_first) hset boundaryPiece_run rfl

/-- The text of its control file, and what it is read as. -/
def boundaryText : List UInt8 :=
  ("\x7b\"v\":1,\"kind\":\"bt-resume\",\"info_hash\":\"00\",\"piece_count\":1," ++
    "\"bitfield\":\"80\",\"saved_at\":0\x7d").toUTF8.toList

def boundaryParse (text : List UInt8) : Option Resume.ResumeDoc :=
  if text = boundaryText then
    some { v := 1, kind := "bt-resume", infoHash := "00", pieceCount := 1, bitfield := "80",
           savedAt := 0 }
  else none

def boundaryPrint (_ : Resume.ResumeDoc) : List UInt8 := boundaryText

theorem boundaryPiece_json : boundaryParse (boundaryPrint
    (Resume.document [0] boundaryPiece.map.count boundaryPiece.durableBitfield 0)) =
      some (Resume.document [0] boundaryPiece.map.count boundaryPiece.durableBitfield 0) :=
  if_pos rfl

/-- The comparison with the factor 0.85. -/
def scarce85 (onDisk : Nat) (implied : UInt64) : Bool := onDisk * 100 < implied.toNat * 85

/-- The first file takes one block of the disk; the second has `length` bytes. -/
def boundaryFiles (length : Nat) : Metadata (List String) where
  len file := if file = ["t", "a"] then 4 else length
  onDisk file := if file = ["t", "a"] then 4096 else 0

/-- Where the second file happens to be there, the piece is restored. -/
theorem boundaryPiece_restored :
    ∃ t ok, restoreResume boundaryParse scarce85 id "t" (boundaryFiles 4)
      (some (savedResume boundaryPrint [0] 0 boundaryPiece)) [0]
      (halfOpen [some ["t", "a"], none]) = some (t, ok) ∧
      ∀ i, t.map.isSet i = boundaryPiece.map.isSet i := by
  refine (restored_iff twoFiles_new halfOpen_first boundaryPiece_settled.1
    boundaryPiece_settled.2 boundaryPiece_json ?_).mpr ?_
  · intro i file hfile
    rcases i with _ | _ | i
    · obtain rfl := Option.some.inj (Option.some.inj hfile)
      rfl
    · cases hfile
    · cases hfile
  · intro i hi
    have hi : i = 0 := by
      have := UInt32.lt_iff_toNat_lt.mp (PieceMap.lt_count hi)
      change i.toNat < 1 at this
      exact UInt32.toNat_inj.mp (Nat.lt_one_iff.mp this)
    subst hi
    refine ⟨fun segs hsegs seg hseg _ => ?_, fun implied himplied _ => ?_⟩
    · obtain rfl : [⟨0, 0, 4⟩, ⟨1, 0, 4⟩] = segs := Option.some.inj hsegs
      rcases List.mem_cons.mp hseg with rfl | hseg
      · decide
      · obtain rfl := List.mem_singleton.mp hseg
        decide
    · obtain rfl : 8 = implied := Option.some.inj himplied
      decide

/-- Where it is not, as it is not selected, the piece is lost. -/
theorem boundaryPiece_dropped :
    boundaryPiece.Settled ∧
    (∀ (i : Nat) (file : List String), boundaryPiece.files[i]? = some (some file) →
      (boundaryFiles 0).len file = (boundaryPiece.disk.content file).length) ∧
    restoreResume boundaryParse scarce85 id "t" (boundaryFiles 0)
      (some (savedResume boundaryPrint [0] 0 boundaryPiece)) [0]
      (halfOpen [some ["t", "a"], none]) = some (halfOpen [some ["t", "a"], none], false) ∧
    boundaryPiece.map.isSet 0 = true ∧ (halfOpen [some ["t", "a"], none]).map.isSet 0 = false := by
  refine ⟨boundaryPiece_settled.2, ?_, ?_, rfl, rfl⟩
  · intro i file hfile
    rcases i with _ | _ | i
    · obtain rfl := Option.some.inj (Option.some.inj hfile)
      rfl
    · cases hfile
    · cases hfile
  · have hload : Resume.load boundaryParse
        (some (savedResume boundaryPrint [0] 0 boundaryPiece)) [0] 1 = some [128] :=
      Resume.load_saved boundaryPiece_json rfl
    rw [restoreResume, show (halfOpen [some ["t", "a"], none]).map.count = 1 from rfl, hload]
    rfl

end PieceStore

end XferRust.Storage
