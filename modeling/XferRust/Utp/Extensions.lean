import XferRust.Utp.Connection

/-! # Extension chains and the SACK bitmap

The general form of a packet: the header, a chain of extensions of any length, the payload.  The
code only ever writes the empty chain and the chain of one SACK (`encodeExtensions_sack`), but its
parser reads them all.  The parser is the inverse of the encoder on the packets that the format
can express and on no others (`parsePacket_encodePacket_iff`), and whatever it accepts is an
encoded packet (`parsePacket_inv`).

The second half is the bitmap.  `queue_control` computes the place of a buffered number as its
distance from `ack + 2`; `on_ack` counts upwards from `ack_nr + 2`.  Both name the same numbers
(`mem_sackNamed_sackBits`).
-/
namespace XferRust.Utp
open UtpConnection

/-! ## The format -/

/-- The type a chain begins with, which stands in front of it: in the header or in the extension
before. -/
def firstType : List Extension → UInt8
  | [] => extNone
  | e :: _ => e.1

/-- The bytes of a chain: of each extension the type of the next one, the length and the
payload. -/
def encodeExtensions : List Extension → List UInt8
  | [] => []
  | e :: es => firstType es :: UInt8.ofNat e.2.length :: (e.2 ++ encodeExtensions es)

/-- A packet without its payload. -/
def encodePacket (h : PacketHeader) (exts : List Extension) : List UInt8 :=
  encodeHeader h ++ encodeExtensions exts

/-- A chain the format can express: type zero ends a chain, and a length is one byte. -/
def ChainFits (exts : List Extension) : Prop := ∀ e ∈ exts, e.1 ≠ extNone ∧ e.2.length < 256

/-- A header and a chain the format can express. -/
structure Encodable (h : PacketHeader) (exts : List Extension) : Prop where
  header : h.WellFormed
  first : h.extension = firstType exts
  chain : ChainFits exts

theorem ChainFits.cons {e : Extension} {es : List Extension} (he : e.1 ≠ extNone)
    (hlen : e.2.length < 256) (hes : ChainFits es) : ChainFits (e :: es) := by
  intro x hx
  rcases List.mem_cons.mp hx with rfl | hx
  · exact ⟨he, hlen⟩
  · exact hes x hx

theorem ChainFits.tail {e : Extension} {es : List Extension} (h : ChainFits (e :: es)) :
    ChainFits es := fun x hx => h x (List.mem_cons_of_mem e hx)

/-! ## Reading a chain -/

variable {exts : List Extension}

/-- **Writing and reading a chain**, with enough fuel for its bytes. -/
theorem parseExtensions_encode (hfits : ChainFits exts) (payload : List UInt8) (off : Nat)
    {fuel : Nat} (hfuel : (encodeExtensions exts).length ≤ fuel) :
    parseExtensions fuel (firstType exts) (encodeExtensions exts ++ payload) off =
      some (exts, off + (encodeExtensions exts).length) := by
  induction exts generalizing fuel off with
  | nil =>
    unfold parseExtensions
    exact if_pos rfl
  | cons e es ih =>
    obtain ⟨htype, hlen⟩ := hfits e List.mem_cons_self
    have hbyte : (UInt8.ofNat e.2.length).toNat = e.2.length := UInt8.toNat_ofNat_of_lt' hlen
    have hsize : (encodeExtensions (e :: es)).length =
        e.2.length + (encodeExtensions es).length + 2 := by
      rw [encodeExtensions, List.length_cons, List.length_cons, List.length_append]
    cases fuel with
    | zero => omega
    | succ fuel =>
      have hrest := ih hfits.tail (off + 2 + e.2.length)
        (show (encodeExtensions es).length ≤ fuel by omega)
      have hbytes : encodeExtensions (e :: es) ++ payload =
          firstType es :: UInt8.ofNat e.2.length :: (e.2 ++ (encodeExtensions es ++ payload)) := by
        rw [encodeExtensions, List.cons_append, List.cons_append, List.append_assoc]
      rw [hbytes, parseExtensions, if_neg (show firstType (e :: es) ≠ extNone from htype)]
      rw [hbyte, if_neg (by rw [List.length_append]; omega), List.drop_left, List.take_left, hrest,
        Option.map_some]
      rw [encodeExtensions, List.length_cons, List.length_cons, List.length_append]
      congr 2
      omega

/-- **What the chain reader accepts** is an encoded chain, and it stops right behind it. -/
theorem parseExtensions_inv {fuel : Nat} {t : UInt8} {rest : List UInt8} {off off' : Nat}
    (h : parseExtensions fuel t rest off = some (exts, off')) :
    t = firstType exts ∧ ChainFits exts ∧ off' = off + (encodeExtensions exts).length ∧
      ∃ payload, rest = encodeExtensions exts ++ payload := by
  induction fuel generalizing t rest off exts with
  | zero =>
    unfold parseExtensions at h
    split at h
    · rename_i ht
      cases h
      exact ⟨ht, fun e he => (by cases he), rfl, rest, rfl⟩
    · cases h
  | succ fuel ih =>
    unfold parseExtensions at h
    split at h
    · rename_i ht
      cases h
      exact ⟨ht, fun e he => (by cases he), rfl, rest, rfl⟩
    · rename_i ht
      split at h
      · rename_i fuel' nextType extLen body hfuel
        cases hfuel
        split at h
        · cases h
        · rename_i hbody
          obtain ⟨⟨es, o⟩, hes, heq⟩ := Option.map_eq_some_iff.mp h
          cases heq
          obtain ⟨hfirst, hfits, hoff, payload, hpay⟩ := ih hes
          have hlen : (body.take extLen.toNat).length = extLen.toNat :=
            List.length_take_of_le (Nat.le_of_not_lt hbody)
          have hbyte : UInt8.ofNat (body.take extLen.toNat).length = extLen := by
            rw [hlen, UInt8.ofNat_toNat]
          have hsmall : (body.take extLen.toNat).length < 256 := by
            have := extLen.toNat_lt
            omega
          refine ⟨rfl, hfits.cons ht hsmall, ?_, payload, ?_⟩
          · rw [hoff, encodeExtensions, List.length_cons, List.length_cons, List.length_append]
            dsimp only
            omega
          · rw [encodeExtensions, hbyte, ← hfirst, List.cons_append, List.cons_append,
              List.append_assoc, ← hpay, List.take_append_drop]
      · cases h

/-! ## Reading a packet -/

@[simp] theorem length_encodePacket (h : PacketHeader) (exts : List Extension) :
    (encodePacket h exts).length = headerLen + (encodeExtensions exts).length := by
  rw [encodePacket, List.length_append, length_encodeHeader]

theorem parsePacket_encodePacket {h : PacketHeader} (he : Encodable h exts) (payload : List UInt8) :
    parsePacket (encodePacket h exts ++ payload) =
      some (h, exts, (encodePacket h exts).length) := by
  rw [encodePacket, List.append_assoc, parsePacket_encodeHeader he.header, he.first,
    parseExtensions_encode he.chain payload headerLen (by rw [List.length_append]; omega),
    Option.map_some, ← encodePacket, length_encodePacket]

/-- The first byte of a packet from its two halves. -/
theorem typeVersion_byte (b : UInt8) :
    ((((b >>> 4) &&& 0x0F) &&& 0x0F) <<< 4) ||| ((b &&& 0x0F) &&& 0x0F) = b := by
  apply UInt8.eq_of_toBitVec_eq
  simp
  ext i h
  have : i = 0 ∨ i = 1 ∨ i = 2 ∨ i = 3 ∨ i = 4 ∨ i = 5 ∨ i = 6 ∨ i = 7 := by omega
  rcases this with rfl | rfl | rfl | rfl | rfl | rfl | rfl | rfl <;> simp

/-- **What the parser accepts** is an encoded packet: header and chain are the bytes in front of
the offset. -/
theorem parsePacket_inv {data : List UInt8} {h : PacketHeader} {off : Nat}
    (hp : parsePacket data = some (h, exts, off)) :
    Encodable h exts ∧ off = (encodePacket h exts).length ∧
      ∃ payload, data = encodePacket h exts ++ payload := by
  unfold parsePacket at hp
  split at hp
  · rename_i b0 b1 b2 b3 b4 b5 b6 b7 b8 b9 b10 b11 b12 b13 b14 b15 b16 b17 b18 b19 rest
    split at hp
    · cases hp
    · rename_i hversion
      obtain ⟨⟨es, o⟩, hes, heq⟩ := Option.map_eq_some_iff.mp hp
      cases heq
      obtain ⟨hfirst, hfits, hoff, payload, hpay⟩ := parseExtensions_inv hes
      refine ⟨⟨⟨?_, Decidable.not_not.mp hversion⟩, hfirst, hfits⟩, ?_, payload, ?_⟩
      · rw [UInt8.and_assoc]
        rfl
      · rw [length_encodePacket]
        exact hoff
      · rw [encodePacket, List.append_assoc, ← hpay]
        simp only [encodeHeader, typeVersion_byte, BigEndian.ofU16_toU16, BigEndian.ofU32_toU32,
          List.cons_append, List.nil_append]
  · cases hp

/-! ## The SACK bitmap -/

/-- Bit `i` of a word. -/
theorem and_shift_ne_zero_iff (bits : UInt32) {i : Nat} (hi : i < 32) :
    bits &&& ((1 : UInt32) <<< UInt32.ofNat i) ≠ 0 ↔ bits.toBitVec.getLsbD i = true := by
  have hn : (UInt32.ofNat i).toBitVec.toNat = i := by
    show (UInt32.ofNat i).toNat = i
    rw [UInt32.toNat_ofNat']
    omega
  constructor
  · intro h
    refine Decidable.byContradiction fun hb => h (UInt32.eq_of_toBitVec_eq ?_)
    ext j hj
    by_cases hji : j = i
    · subst hji
      have hbit : bits.toBitVec[j] = false := Bool.not_eq_true _ ▸ hb
      simp [hbit]
    · simp [hn, Nat.mod_eq_of_lt hi]
      omega
  · intro hb h
    have := congrArg (fun x : UInt32 => x.toBitVec.getLsbD i) h
    simp [hn, Nat.mod_eq_of_lt hi, hb] at this
    omega

/-- The bits that one buffered number sets. -/
theorem getLsbD_or_shift (bits : UInt32) {off : UInt16} (hoff : off < 32) (i : Nat) :
    (bits ||| ((1 : UInt32) <<< off.toUInt32)).toBitVec.getLsbD i =
      (bits.toBitVec.getLsbD i || decide (off.toNat = i)) := by
  have hlt : off.toNat < 32 := UInt16.lt_iff_toNat_lt.mp hoff
  have hn : off.toUInt32.toBitVec.toNat = off.toNat := UInt16.toNat_toUInt32 off
  rw [UInt32.toBitVec_or, BitVec.getLsbD_or, UInt32.toBitVec_shiftLeft, BitVec.shiftLeft_eq',
    BitVec.getLsbD_shiftLeft, BitVec.toNat_umod, hn]
  have hmod : off.toNat % (32 : BitVec 32).toNat = off.toNat := Nat.mod_eq_of_lt hlt
  have hone : ∀ j, (1 : UInt32).toBitVec.getLsbD j = decide (j = 0) := fun j => by
    show (1#32).getLsbD j = decide (j = 0)
    simp [BitVec.getLsbD_one]
  rw [hmod, hone]
  congr 1
  by_cases hi : off.toNat = i
  · simp [← hi, hlt]
  · simp [hi]
    omega

/-- Writing and reading the bitmap. -/
theorem decodeSackBits_encodeSack (bits : UInt32) :
    decodeSackBits ((encodeSack bits).drop 2) = bits := by
  apply UInt32.eq_of_toBitVec_eq
  simp only [encodeSack, decodeSackBits, List.drop_succ_cons, List.drop_zero, UInt32.toBitVec_or,
    UInt32.toBitVec_shiftLeft, UInt8.toBitVec_toUInt32, UInt32.toBitVec_toUInt8,
    UInt32.toBitVec_shiftRight]
  ext i h
  have h8 : (UInt32.toBitVec 8 % 32).toNat = 8 := rfl
  have h16 : (UInt32.toBitVec 16 % 32).toNat = 16 := rfl
  have h24 : (UInt32.toBitVec 24 % 32).toNat = 24 := rfl
  simp only [BitVec.getElem_or, BitVec.getElem_setWidth, BitVec.getLsbD_setWidth,
    BitVec.shiftLeft_eq', BitVec.ushiftRight_eq', h8, h16, h24, BitVec.getElem_shiftLeft,
    BitVec.getLsbD_ushiftRight]
  rw [← BitVec.getLsbD_eq_getElem]
  -- one case for each byte of the bitmap
  have hbyte : i < 8 ∨ 8 ≤ i ∧ i < 16 ∨ 16 ≤ i ∧ i < 24 ∨ 24 ≤ i := by omega
  rcases hbyte with h1 | ⟨hlo, hhi⟩ | ⟨hlo, hhi⟩ | hlo
  · have : i < 16 := by omega
    have : i < 24 := by omega
    simp [*]
  · have : ¬ i < 8 := by omega
    have : i - 8 < 8 := by omega
    have : 8 + (i - 8) = i := by omega
    have : i < 24 := by omega
    simp [*]
  · have : ¬ i < 8 := by omega
    have : ¬ i < 16 := by omega
    have : ¬ i - 8 < 8 := by omega
    have : i - 16 < 8 := by omega
    have : 16 + (i - 16) = i := by omega
    simp [*]
  · have : ¬ i < 8 := by omega
    have : ¬ i < 16 := by omega
    have : ¬ i < 24 := by omega
    have : ¬ i - 8 < 8 := by omega
    have : ¬ i - 16 < 8 := by omega
    have : i - 24 < 8 := by omega
    have : 24 + (i - 24) = i := by omega
    simp [*]

/-- The numbers a bitmap names: bit `i` stands for `ack_nr + 2 + i`. -/
def sackNamed (ackNr : UInt16) (sackBits : UInt32) : List UInt16 :=
  ((List.range 32).filter fun bit => sackBits &&& ((1 : UInt32) <<< UInt32.ofNat bit) ≠ 0).map
    fun bit => ackNr + (2 + UInt16.ofNat bit)

theorem mem_sackNamed {ackNr k : UInt16} {sackBits : UInt32} :
    k ∈ sackNamed ackNr sackBits ↔
      ∃ i, i < 32 ∧ sackBits.toBitVec.getLsbD i = true ∧ k = ackNr + (2 + UInt16.ofNat i) := by
  simp only [sackNamed, List.mem_map, List.mem_filter, List.mem_range, decide_eq_true_eq]
  constructor
  · rintro ⟨i, ⟨hi, hbit⟩, rfl⟩
    exact ⟨i, hi, (and_shift_ne_zero_iff sackBits hi).mp hbit, rfl⟩
  · rintro ⟨i, hi, hbit, rfl⟩
    exact ⟨i, ⟨hi, (and_shift_ne_zero_iff sackBits hi).mpr hbit⟩, rfl⟩

/-- The loop of `queue_control` over the buffered numbers sets the bits of those near `base`. -/
theorem getLsbD_foldl (base : UInt16) (ks : List UInt16) (bits : UInt32) {i : Nat} (hi : i < 32) :
    (ks.foldl (fun bits k =>
        let off := k - base
        if off < 32 then bits ||| ((1 : UInt32) <<< off.toUInt32) else bits) bits).toBitVec.getLsbD
      i = (bits.toBitVec.getLsbD i || ks.any fun k => (k - base).toNat = i) := by
  induction ks generalizing bits with
  | nil => simp
  | cons k ks ih =>
    rw [List.foldl_cons, ih, List.any_cons, ← Bool.or_assoc]
    congr 1
    dsimp only
    split
    · exact getLsbD_or_shift bits ‹_› i
    · rename_i hfar
      have hne : (k - base).toNat ≠ i := fun h => hfar (UInt16.lt_iff_toNat_lt.mpr (h ▸ hi))
      simp [hne]

/-- **The two sides agree.**  The bitmap of a reorder buffer names exactly the buffered numbers
among the 32 behind `ack + 1`. -/
theorem mem_sackNamed_sackBits (s : UtpConnection) (k : UInt16) :
    k ∈ sackNamed s.ack s.sackBits ↔
      k ∈ s.recvReorder.keys ∧ ∃ i, i < 32 ∧ k = s.ack + 2 + UInt16.ofNat i := by
  have hplace : ∀ (i : Nat) (j : UInt16), i < 32 →
      ((j - (s.ack + 2)).toNat = i ↔ j = s.ack + (2 + UInt16.ofNat i)) := by
    intro i j hi
    have hin : (UInt16.ofNat i).toNat = i := by
      rw [UInt16.toNat_ofNat']
      omega
    constructor
    · intro h
      have : j - (s.ack + 2) = UInt16.ofNat i := UInt16.toNat_inj.mp (h.trans hin.symm)
      grind
    · intro h
      have : j - (s.ack + 2) = UInt16.ofNat i := by grind
      rw [this, hin]
  rw [mem_sackNamed]
  constructor
  · rintro ⟨i, hi, hbit, hk⟩
    rw [sackBits, getLsbD_foldl _ _ _ hi] at hbit
    have hany : (s.recvReorder.keys.any fun k => (k - (s.ack + 2)).toNat = i) = true := by
      simpa using hbit
    obtain ⟨j, hj, hji⟩ := List.any_eq_true.mp hany
    have hjk : j = k := ((hplace i j hi).mp (of_decide_eq_true hji)).trans hk.symm
    exact ⟨hjk ▸ hj, i, hi, by rw [hk, UInt16.add_assoc]⟩
  · rintro ⟨hmem, i, hi, hk⟩
    rw [UInt16.add_assoc] at hk
    refine ⟨i, hi, ?_, hk⟩
    rw [sackBits, getLsbD_foldl _ _ _ hi]
    have hany : (s.recvReorder.keys.any fun k => (k - (s.ack + 2)).toNat = i) = true :=
      List.any_eq_true.mpr ⟨k, hmem, decide_eq_true ((hplace i k hi).mpr hk)⟩
    rw [hany, Bool.or_true]

/-- **The SACK of a control packet**, as the other side reads it. -/
theorem sack_controlPacket (s : UtpConnection) {t : UInt8} (ht : t &&& 0x0F = t) (env : Env) :
    ∃ hdr exts off, parsePacket (s.controlPacket t env 0) = some (hdr, exts, off) ∧
      hdr.type_ = t ∧ hdr.ackNr = s.ack ∧
        ∀ k, k ∈ sackNamed hdr.ackNr (sackOf exts) ↔
          k ∈ s.recvReorder.keys ∧ ∃ i, i < 32 ∧ k = s.ack + 2 + UInt16.ofNat i := by
  have hw : (s.controlHeader t env 0).WellFormed := ⟨ht, rfl⟩
  have hack : (s.controlHeader t env 0).ackNr = s.ack := by
    show (if (0 : UInt16) = 0 then s.ack else 0) = s.ack
    exact if_pos rfl
  unfold controlPacket
  by_cases hempty : s.recvReorder.isEmpty = true
  · rw [if_pos hempty]
    refine ⟨_, _, _, parsePacket_plain hw (if_pos hempty) [], rfl, hack, fun k => ?_⟩
    have hkeys : s.recvReorder.keys = [] := by
      rw [SortedMap.keys, SortedMap.isEmpty_iff.mp hempty, List.map_nil]
    rw [hkeys]
    exact iff_of_false (fun h => by cases h) (fun h => (by cases h.1))
  · rw [if_neg hempty]
    refine ⟨_, _, _, parsePacket_sack hw (if_neg hempty) s.sackBits, rfl, hack, fun k => ?_⟩
    have hsack : sackOf [(extSack, (encodeSack s.sackBits).drop 2)] = s.sackBits :=
      decodeSackBits_encodeSack s.sackBits
    rw [hack, hsack]
    exact mem_sackNamed_sackBits s k

/-! ## The round trip -/

/-- **Packets round trip.**  Parsing an encoded packet gives header, chain and payload offset back
exactly when the format can express them; whatever the parser accepts, the offset lies inside the
data and header and chain are the bytes in front of it; and the SACK of an acknowledgement, of a
FIN or of a SYN names for the other side exactly the buffered numbers in `ack + 2 … ack + 33`. -/
theorem packets_roundTrip :
    (∀ (h : PacketHeader) (exts : List Extension) (payload : List UInt8),
      parsePacket (encodePacket h exts ++ payload) =
        some (h, exts, (encodePacket h exts).length) ↔ Encodable h exts) ∧
    (∀ data : List UInt8, parsePacket data = none ∨
      ∃ h exts off, parsePacket data = some (h, exts, off) ∧ off ≤ data.length ∧
        data.take off = encodePacket h exts) ∧
    ∀ (s : UtpConnection) (env : Env), ∀ t ∈ [stState, stFin, stSyn],
      ∃ hdr exts off, parsePacket (s.controlPacket t env 0) = some (hdr, exts, off) ∧
        hdr.type_ = t ∧ hdr.ackNr = s.ack ∧
          ∀ k, k ∈ sackNamed hdr.ackNr (sackOf exts) ↔
            k ∈ s.recvReorder.keys ∧ ∃ i, i < 32 ∧ k = s.ack + 2 + UInt16.ofNat i := by
  refine ⟨fun h exts payload => ?_, fun data => ?_, fun s env t ht => ?_⟩
  · constructor
    · intro hp
      exact (parsePacket_inv hp).1
    · intro he
      exact parsePacket_encodePacket he payload
  · cases hp : parsePacket data with
    | none => exact .inl rfl
    | some r =>
      obtain ⟨h, exts, off⟩ := r
      obtain ⟨-, hoff, payload, hdata⟩ := parsePacket_inv hp
      refine .inr ⟨h, exts, off, rfl, ?_, ?_⟩
      · rw [hoff, hdata, List.length_append]
        exact Nat.le_add_right _ _
      · rw [hoff, hdata, List.take_left]
  · refine sack_controlPacket s ?_ env
    simp only [List.mem_cons, List.not_mem_nil, or_false] at ht
    rcases ht with rfl | rfl | rfl <;> rfl

/-- A connection that holds packet 3 back because packet 1 is missing. -/
def gapConnection (env : Env) : UtpConnection :=
  (newInbound 7 0 5 env).handlePacket
    (encodeHeader
      { type_ := stData, version := protocolVersion, extension := extNone, connectionId := 8
        timestamp := 0, timestampDiff := 0, wndSize := 1400, seqNr := 3, ackNr := 4 } ++ [9]) env

/-- Its acknowledgement names the packet. -/
theorem packets_roundTrip_gap :
    ∃ hdr exts off,
      parsePacket ((gapConnection ⟨0, 0, fun _ _ _ _ => 0⟩).controlPacket stState
        ⟨0, 0, fun _ _ _ _ => 0⟩ 0) = some (hdr, exts, off) ∧
      3 ∈ sackNamed hdr.ackNr (sackOf exts) := by
  obtain ⟨hdr, exts, off, hp, -, -, hk⟩ := packets_roundTrip.2.2
    (gapConnection ⟨0, 0, fun _ _ _ _ => 0⟩) ⟨0, 0, fun _ _ _ _ => 0⟩ stState (by decide)
  exact ⟨hdr, exts, off, hp, (hk 3).mpr ⟨by decide, 1, by decide, by decide⟩⟩

/-- The parser turns away every version but its own, so that not every header comes back. -/
theorem not_every_header_parses :
    ¬ ∀ (h : PacketHeader) (exts : List Extension) (payload : List UInt8),
      h.extension = firstType exts → ChainFits exts →
        parsePacket (encodePacket h exts ++ payload) =
          some (h, exts, (encodePacket h exts).length) := by
  intro h
  have := h
    { type_ := stData, version := 2, extension := extNone, connectionId := 0, timestamp := 0
      timestampDiff := 0, wndSize := 0, seqNr := 0, ackNr := 0 } [] [] rfl
    (fun e he => (by cases he))
  revert this
  decide

end XferRust.Utp
