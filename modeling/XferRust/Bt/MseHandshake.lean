import XferRust.Lib.Sha1
import XferRust.Bt.MseAgreement

/-! # Agreement after the encrypted handshake

Two sides that have finished agree, provided that the payload's length fits the two bytes that
tell it.  That they do finish is shown by a run: what each routine does on the bytes of the other
is put together from what it does field by field.
-/
namespace XferRust.Bt.Mse

open ByteProc Search

/-! ## A scan that finds its marker -/

/-- What is taken comes from the stream alone when nothing was read before. -/
theorem reaches_readExactInto {n : Nat} {data : List UInt8} (h : data.length = n) :
    Reaches (readExactInto n []) data [] (.done (data, [])) := by
  unfold readExactInto
  simp only [List.take_nil, List.drop_nil, List.nil_append, List.length_nil, Nat.sub_zero]
  exact (reaches_readExact _ h).bind _

/-- Where the marker begins in the rest of a stream, it does not begin in the padding. -/
theorem past_padding {marker pad dropped buf todo : List UInt8} (hne : marker ≠ [])
    (hfirst : FirstAt marker pad) (hall : dropped ++ buf ++ todo = pad ++ marker) {k : Nat}
    (hk : marker <+: buf.drop k) : pad.length ≤ dropped.length + k := by
  refine Nat.le_of_not_lt fun hlt => hfirst _ hlt ?_
  rw [← hall, List.append_assoc, List.drop_append, List.drop_eq_nil_of_le (Nat.le_add_right _ _),
    List.nil_append, Nat.add_sub_cancel_left]
  exact prefix_drop_append _ hk hne

/-- **A scan that reads byte by byte** comes to the end of the marker, behind a padding that does
not hold it. -/
theorem reaches_scanSync {marker pad : List UInt8} (hne : marker ≠ []) (hfirst : FirstAt marker pad)
    (hpad : pad.length ≤ syncScanLimit) {todo dropped buf : List UInt8}
    (hall : dropped ++ buf ++ todo = pad ++ marker) (hdropped : dropped.length ≤ pad.length) :
    Reaches (scanSync marker buf dropped.length) todo [] (.done []) := by
  have hmarker : 0 < marker.length := List.length_pos_iff.mpr hne
  have hlen := congrArg List.length hall
  simp only [List.length_append] at hlen
  induction todo generalizing dropped buf with
  | nil =>
    rw [List.append_nil] at hall
    unfold scanSync
    split
    · rename_i pos hpos
      have hpast := past_padding hne hfirst (by rw [List.append_nil, hall]) (position_eq_some hpos).1
      have hdrop : buf.drop (pos + marker.length) = [] :=
        List.drop_eq_nil_of_le (by rw [List.length_nil] at hlen; omega)
      rw [hdrop]
      exact .refl _
    · rename_i hnone
      refine absurd ?_ (position_eq_none hne hnone (pad.length - dropped.length))
      have hat : (dropped ++ buf).drop pad.length = buf.drop (pad.length - dropped.length) := by
        rw [List.drop_append, List.drop_eq_nil_of_le hdropped, List.nil_append]
      have hend : buf.drop (pad.length - dropped.length) = marker := by
        rw [← hat, hall, List.drop_left]
      exact hend.symm ▸ List.prefix_refl marker
  | cons b todo ih =>
    rw [List.length_cons] at hlen
    unfold scanSync
    split
    · rename_i pos hpos
      obtain ⟨hat, hlt, -⟩ := position_eq_some hpos
      have hpast := past_padding hne hfirst hall hat
      have hfits := hat.length_le
      rw [List.length_drop] at hfits
      omega
    · rename_i hnone
      dsimp only
      have hmore : dropped ++ buf.take (buf.length - (marker.length - 1)) ++
          (buf.drop (buf.length - (marker.length - 1)) ++ [b]) ++ todo = pad ++ marker := by
        rw [← hall]
        simp only [List.append_assoc, List.singleton_append]
        rw [← List.append_assoc (buf.take _), List.take_append_drop]
      have hgone : (dropped ++ buf.take (buf.length - (marker.length - 1))).length =
          dropped.length + (buf.length - (marker.length - 1)) := by
        rw [List.length_append, List.length_take, Nat.min_eq_left (Nat.sub_le _ _)]
      rw [if_neg (by omega)]
      refine .read (c := [b]) (by rw [List.length_singleton]; decide) ?_
      rw [if_neg (List.cons_ne_nil _ _), ← hgone]
      refine ih hmore (by omega) ?_
      have hlen' := congrArg List.length hmore
      simpa only [List.length_append] using hlen'

/-- The scan behind a padding, from nothing. -/
theorem reaches_scan {marker pad : List UInt8} (hne : marker ≠ []) (hfirst : FirstAt marker pad)
    (hpad : pad.length ≤ maxPad) :
    Reaches (scanSync marker [] 0) (pad ++ marker) [] (.done []) :=
  reaches_scanSync hne hfirst hpad
    (show ([] : List UInt8) ++ [] ++ (pad ++ marker) = pad ++ marker from rfl) (Nat.zero_le _)

/-! ## What the two sides do -/

section Completion

variable {sha1 : List UInt8 → List UInt8}

theorem mod_le_maxPad (pad : Pad) : (decide (maxPad < pad.bytes.length)) = false :=
  decide_eq_false (Nat.not_lt.mpr pad.short)

/-- The bytes of an answer, in the order in which the initiator takes them. -/
theorem answer_fields (r : Rc4) (select : UInt32) (pad padD hs : List UInt8) :
    pad ++ (r.enc (answer select padD) ++ hs) =
      (pad ++ r.enc vc) ++ ((r.after 8).enc (BigEndian.ofU32 select ++ lenBytes padD) ++
        ((r.after 14).enc padD ++ (hs ++ []))) := by
  rw [enc_answer]
  simp only [List.append_assoc, List.append_nil]

/-- **The initiator reads an answer** to its end. -/
theorem ends_initiatorAnswer (provide : UInt32) (sendStream : Rc4) (padD : Pad)
    {select : UInt32} {r : Rc4} {padB : Pad} {hs : List UInt8} (hfirst : FirstAt (r.enc vc) padB.bytes)
    (hhs : hs.length = btHandshakeLen)
    (hselect : select &&& cryptoRc4 ≠ 0 ∨
      (select &&& cryptoPlaintext ≠ 0 ∧ provide &&& cryptoPlaintext ≠ 0)) :
    Ends (initiatorAnswer provide sendStream r)
      (padB.bytes ++ (r.enc (answer select padD.bytes) ++ hs)) [] := by
  have hne : r.enc vc ≠ [] := List.length_pos_iff.mp (by rw [length_enc_vc]; decide)
  have hhdr := length_enc_header (r.after 8) select padD.bytes
  have hlen : u16At (BigEndian.ofU32 select ++ lenBytes padD.bytes) 4 = padD.bytes.length := by
    rw [show 4 = (BigEndian.ofU32 select).length from rfl, u16At_lenBytes, padD.length_mod]
  rw [answer_fields]
  unfold initiatorAnswer
  simp only [Rc4.process_eq]
  refine (reaches_scan hne hfirst padB.short).readsEnds ?_
  refine (reaches_readExactInto hhdr).readsEnds ?_
  dsimp only
  rw [show vc.length = 8 from rfl, Rc4.enc_enc, hlen]
  refine (reaches_rejectIf (mod_le_maxPad padD) _).silentEnds ?_
  refine (reaches_readExactInto (Rc4.length_enc _ _)).readsEnds ?_
  refine (reaches_readExactInto hhs).readsEnds ?_
  dsimp only
  rw [u32At_ofU32]
  split
  · exact .of_done _
  · rename_i hno
    rw [if_pos (hselect.resolve_left hno)]
    exact .of_done _

/-- The bytes of an offer, in the order in which the responder takes them. -/
theorem offer_fields (r : Rc4) (provide : UInt32) (pad req1 hash padC payload ia : List UInt8) :
    pad ++ (req1 ++ (hash ++ (r.enc (offer provide padC payload) ++ ia))) =
      (pad ++ req1) ++ (hash ++ (r.enc vc ++
        ((r.after 8).enc (BigEndian.ofU32 provide ++ lenBytes padC) ++ ((r.after 14).enc padC ++
          ((r.after (14 + padC.length)).enc (lenBytes payload) ++ (ia ++ [])))))) := by
  rw [enc_offer]
  simp only [List.append_assoc, List.append_nil]

/-- **The responder reads an offer**, with the payload as far as its length was told. -/
theorem reaches_responderOffer (provide : UInt32) (padC : Pad) (payload : List UInt8)
    {shared skey : List UInt8} {padA : Pad} (hsha : ∀ m, (sha1 m).length = 20)
    (hfirst : FirstAt (req1Hash sha1 shared) padA.bytes) {k : Nat}
    (hk : payload.length % 65536 = k) (htold : k ≤ maxIa) {r : Rc4}
    (hr : streamA sha1 shared skey = r) :
    ∃ o, o.provide = provide ∧ o.sendStream = streamB sha1 shared skey ∧
      Reaches (responderOffer sha1 shared skey)
        (padA.bytes ++ (req1Hash sha1 shared ++ (obfuscatedSkeyHash sha1 shared skey ++
          (r.enc (offer provide padC.bytes payload) ++
            (r.after (16 + padC.bytes.length)).enc (payload.take k))))) [] (.done o) := by
  have hne : req1Hash sha1 shared ≠ [] :=
    List.length_pos_iff.mp (by rw [req1Hash, hsha]; decide)
  have hobf : (obfuscatedSkeyHash sha1 shared skey).length = 20 := by
    rw [obfuscatedSkeyHash, List.length_zipWith, req2Hash, req3Hash, hsha, hsha]
    rfl
  have hvc : (r.enc vc).length = 8 := length_enc_vc r
  have hhdr := length_enc_header (r.after 8) provide padC.bytes
  have hia := length_enc_lenBytes (r.after (14 + padC.bytes.length)) payload
  have hlen : u16At (BigEndian.ofU32 provide ++ lenBytes padC.bytes) 4 = padC.bytes.length := by
    rw [show 4 = (BigEndian.ofU32 provide).length from rfl, u16At_lenBytes, padC.length_mod]
  have hlen' : u16At (lenBytes payload) 0 = k := (u16At_lenBytes [] payload).trans hk
  have htake : (payload.take k).length = k := by
    rw [List.length_take, ← hk]
    exact Nat.min_eq_left (Nat.mod_le _ _)
  have hpos : 8 + (6 + padC.bytes.length) = 14 + padC.bytes.length := by omega
  have hpos' : 14 + padC.bytes.length + 2 = 16 + padC.bytes.length := by omega
  refine ⟨{ sendStream := streamB sha1 shared skey
            recvStream := r.after (16 + padC.bytes.length + k)
            provide, peerIa := payload.take k, leftover := [] }, rfl, rfl, ?_⟩
  rw [offer_fields]
  unfold responderOffer deriveRc4Streams
  simp only [Rc4.process_eq, hr]
  refine (reaches_scan hne hfirst padA.short).reads ?_
  refine (reaches_readExactInto hobf).reads ?_
  refine (reaches_rejectIf ?_ _).silent ?_
  · rw [Bool.not_eq_false', skeyMatchesObfuscated]
    exact decide_eq_true rfl
  refine (reaches_readExactInto hvc).reads ?_
  refine (reaches_rejectIf ?_ _).silent ?_
  · exact decide_eq_false (not_not_intro (Rc4.enc_enc r vc))
  refine (reaches_readExactInto hhdr).reads ?_
  dsimp only
  rw [hvc, Rc4.enc_enc, hlen]
  refine (reaches_rejectIf (mod_le_maxPad padC) _).silent ?_
  refine (reaches_readExactInto (Rc4.length_enc _ _)).reads ?_
  dsimp only
  refine (reaches_readExactInto hia).reads ?_
  dsimp only
  rw [hhdr, hia, Rc4.length_enc, Rc4.after_after, Rc4.after_after, Rc4.after_after, hpos,
    Rc4.enc_enc, hlen', hpos']
  refine (reaches_rejectIf (decide_eq_false (Nat.not_lt.mpr htold)) _).silent ?_
  refine (reaches_readExactInto ((Rc4.length_enc _ _).trans htake)).reads ?_
  dsimp only
  rw [Rc4.enc_enc, Rc4.length_enc, htake, Rc4.after_after, u32At_ofU32]
  exact .refl _

/-- What the responder writes behind the keys. -/
def answerBytes (select : UInt32) (sendStream : Rc4) (padD ourHandshake : List UInt8) :
    List UInt8 :=
  sendStream.enc (answer select padD) ++
    if select &&& cryptoRc4 ≠ 0 then (sendStream.after (answer select padD).length).enc ourHandshake
    else ourHandshake

/-- **The responder answers**, when it may choose what the mask offers. -/
theorem ends_responderAnswer (padD : Pad) (ourHandshake : List UInt8) {o : Offer}
    {forceEncrypted : Bool}
    (hchoice : o.provide &&& cryptoRc4 ≠ 0 ∨
      (!forceEncrypted ∧ o.provide &&& cryptoPlaintext ≠ 0)) :
    ∃ select, (select &&& cryptoRc4 ≠ 0 ∨
        (select &&& cryptoPlaintext ≠ 0 ∧ o.provide &&& cryptoPlaintext ≠ 0)) ∧
      Ends (responderAnswer o padD ourHandshake forceEncrypted) []
        (answerBytes select o.sendStream padD.bytes ourHandshake) := by
  unfold responderAnswer answerBytes
  simp only [Rc4.process_eq]
  split
  · refine ⟨cryptoRc4, .inl (by decide), ?_⟩
    rw [if_pos (by decide)]
    exact (reaches_writeAll _).writesEnds (ends_writeAll _ _)
  · rename_i hno
    have hplain := hchoice.resolve_left hno
    refine ⟨cryptoPlaintext, .inr ⟨by decide, hplain.2⟩, ?_⟩
    rw [if_pos hplain, if_neg (by decide)]
    exact (reaches_writeAll _).writesEnds (ends_writeAll _ _)

variable (sha1) in
/-- **The initiator up to the answer**: its key first, and the offer when it has read the
other's. -/
theorem reaches_initiator {x : Nat} (padA padC : Pad) (skey payload : List UInt8)
    (provide : UInt32) {yb shared : List UInt8} (hyb : yb.length = keyLen) (hdeg : isDegenerateKey yb = false)
    (hshared : computeSharedSecret x yb = shared) (hdeg' : isDegenerateKey shared = false) :
    ∃ p, Reaches (initiator sha1 x padA padC skey payload provide) []
        (publicKey x ++ padA.bytes) p ∧
      Reaches p yb
        (req1Hash sha1 shared ++ obfuscatedSkeyHash sha1 shared skey ++
          ((streamA sha1 shared skey).enc (offer provide padC.bytes payload) ++
            ((streamA sha1 shared skey).after (offer provide padC.bytes payload).length).enc
              payload))
        (initiatorAnswer provide
          (((streamA sha1 shared skey).after (offer provide padC.bytes payload).length).after
            payload.length)
          (streamB sha1 shared skey)) := by
  refine ⟨_, (reaches_writeAll _).bind _, ?_⟩
  rw [← List.append_nil yb, ← List.append_nil (Rc4.enc (Rc4.after _ _) payload)]
  simp only [deriveRc4Streams, Rc4.process_eq]
  refine (reaches_readExact _ hyb).reads ?_
  refine (reaches_rejectIf hdeg _).silent ?_
  rw [hshared]
  refine (reaches_rejectIf hdeg' _).silent ?_
  refine (reaches_writeAll _).writes ?_
  refine (reaches_writeAll _).writes ?_
  exact (reaches_writeAll _).writes (.refl _)

/-- **The responder**: its key when it has read the other's, and the answer when it has read the
offer. -/
theorem reaches_responder (padB : Pad) {y : Nat} {padD : Pad} {skey ourHandshake ya shared : List UInt8}
    {forceEncrypted : Bool} {offerBytes answerBytes : List UInt8} {o : Offer}
    (hya : ya.length = keyLen) (hplain : ya.take 20 ≠ plainHead)
    (hdeg : isDegenerateKey ya = false) (hshared : computeSharedSecret y ya = shared)
    (hdeg' : isDegenerateKey shared = false)
    (hoffer : Reaches (responderOffer sha1 shared skey) offerBytes [] (.done o))
    (hanswer : Ends (responderAnswer o padD ourHandshake forceEncrypted) [] answerBytes) :
    ∃ p, Reaches (responder sha1 y padB padD skey ourHandshake forceEncrypted) ya
        (publicKey y ++ padB.bytes) p ∧ Ends p offerBytes answerBytes := by
  have hhead : (ya.take 20).length = 20 := by rw [List.length_take, hya]; rfl
  have hrest : (ya.drop 20).length = keyLen - 20 := by rw [List.length_drop, hya]
  have hcut : ya = ya.take 20 ++ (ya.drop 20 ++ []) := by
    rw [List.append_nil, List.take_append_drop]
  have hout : publicKey y ++ padB.bytes = (publicKey y ++ padB.bytes) ++ [] :=
    (List.append_nil _).symm
  have hp : Reaches (responder sha1 y padB padD skey ourHandshake forceEncrypted)
      (ya.take 20 ++ (ya.drop 20 ++ [])) ((publicKey y ++ padB.bytes) ++ [])
      (do
        let o ← responderOffer sha1 shared skey
        responderAnswer o padD ourHandshake forceEncrypted) := by
    unfold responder
    refine (reaches_readExact _ hhead).reads ?_
    rw [if_neg hplain]
    refine (reaches_readExact _ hrest).reads ?_
    rw [List.take_append_drop]
    refine (reaches_rejectIf hdeg _).silent ?_
    refine (reaches_writeAll _).writes ?_
    rw [hshared]
    exact (reaches_rejectIf hdeg' _).silent (.refl _)
  rw [← hcut, ← hout] at hp
  have hend := (hoffer.bind fun o => responderAnswer o padD ourHandshake forceEncrypted).toEnds
    hanswer
  rw [List.append_nil, List.nil_append] at hend
  exact ⟨_, hp, hend⟩

/-- **A handshake that nothing stands in the way of completes**: there is a run in which both
sides finish, whatever the paddings and the mask, as long as the told length is allowed. -/
theorem completes {c : Handshake} (hsha : ∀ m, (sha1 m).length = 20) (hm : c.Unmarked sha1)
    (htold : c.told ≤ maxIa) (hplain : ¬ c.LooksPlain)
    (hx : isDegenerateKey (publicKey c.x) = false) (hy : isDegenerateKey (publicKey c.y) = false)
    (hshared : isDegenerateKey c.shared = false)
    (hchoice : c.provide &&& cryptoRc4 ≠ 0 ∨
      (!c.forceEncrypted ∧ c.provide &&& cryptoPlaintext ≠ 0)) :
    ∃ s oa ob, Duplex.Steps (c.start sha1) s ∧ s.a = .done oa ∧ s.b = .done ob ∧
      s.appA = [] := by
  obtain ⟨p, hp, hp'⟩ := reaches_initiator sha1 c.padA c.padC c.skey c.payload c.provide
    (length_publicKey c.y) hy (show computeSharedSecret c.x (publicKey c.y) = c.shared from rfl)
    hshared
  obtain ⟨o, hprovide, hsend, hoffer⟩ := reaches_responderOffer c.provide c.padC c.payload hsha
    hm.req1 rfl htold (rfl : streamA sha1 c.shared c.skey = _)
  rw [← hprovide] at hchoice
  obtain ⟨select, hselect, hanswer⟩ := ends_responderAnswer c.padD c.ourHandshake hchoice
  obtain ⟨q, hq, ob, hq'⟩ := reaches_responder c.padB (length_publicKey c.x) hplain hx
    (computeSharedSecret_comm c.y c.x) hshared hoffer hanswer
  rw [hprovide] at hselect
  rw [hsend] at hq'
  -- the handshake behind the answer, enciphered or not, has its length
  have hanswered : ∃ hs : List UInt8, hs.length = btHandshakeLen ∧
      answerBytes select (streamB sha1 c.shared c.skey) c.padD.bytes c.ourHandshake =
        (streamB sha1 c.shared c.skey).enc (answer select c.padD.bytes) ++ hs := by
    refine ⟨_, ?_, rfl⟩
    split
    · rw [Rc4.length_enc, c.handshake_len]
    · exact c.handshake_len
  obtain ⟨hs, hhs, hbytes⟩ := hanswered
  obtain ⟨oa, hans⟩ := ends_initiatorAnswer c.provide
    (((streamA sha1 c.shared c.skey).after
      (offer c.provide c.padC.bytes c.payload).length).after c.payload.length) c.padD hm.vc hhs
    hselect
  have h₁ := Duplex.Steps.ofReachesA (s := c.start sha1) [] hp rfl rfl
  have h₂ := h₁.trans (Duplex.Steps.ofReachesB c.padA.bytes hq rfl rfl)
  have h₃ := h₂.trans (Duplex.Steps.ofReachesA c.padB.bytes hp' rfl rfl)
  have h₄ := h₃.trans (Duplex.Steps.ofReachesB
    (((streamA sha1 c.shared c.skey).after (16 + c.padC.bytes.length + c.told)).enc
      (c.payload.drop c.told)) hq' rfl ?_)
  · have h₅ := h₄.trans (Duplex.Steps.ofReachesA [] hans rfl ?_)
    · exact ⟨_, oa, ob, h₅, rfl, rfl, rfl⟩
    · rw [List.append_nil, hbytes]
  · have hpayload := enc_offer_payload (streamA sha1 c.shared c.skey) c.provide c.padC.bytes
      c.told_le
    rw [Rc4.enc_append] at hpayload
    rw [hpayload]
    simp only [List.append_assoc]
    rfl

end Completion

/-- **When both sides finish, they agree** on encryption, on both payloads and on where the two
streams stand, if and only if the payload's length fits the `u16` that tells it and the responder
did not take the initiator's key for a plaintext handshake: for every order of the steps, every
cut into reads, all paddings, masks and flags. -/
theorem handshake_agrees_iff {sha1 : List UInt8 → List UInt8} (c : Handshake)
    (hsha : ∀ m, (sha1 m).length = 20) (hm : c.Unmarked sha1)
    {s : Duplex IoError PeOutcome} (hrun : Duplex.Steps (c.start sha1) s) {oa ob : PeOutcome}
    (ha : s.a = .done oa) (hb : s.b = .done ob) :
    c.Agree s oa ob ↔ c.payload.length < 65536 ∧ ¬ c.LooksPlain := by
  rcases Handshake.made_or_plain hsha hm hrun ha hb with
    ⟨hnot, pendingA, pendingB, hmade, hA, hB⟩ | ⟨hplain, rfl, hmore⟩
  · rw [← Handshake.told_eq_iff]
    constructor
    · exact fun hagree => ⟨hmade.told_eq hagree, hnot⟩
    · rintro ⟨htold, -⟩
      refine hmade.agree htold hA ?_
      rw [hB, htold, List.drop_length]
      rfl
  · refine ⟨fun hagree => ?_, fun h => absurd hplain h.2⟩
    cases oa with
    | encrypted => exact hagree.elim
    | plaintext =>
      rw [hagree.2.2.1] at hmore
      exact absurd hmore (Nat.not_lt.mpr (Nat.le_add_left _ _))

/-- A handshake with small keys, without paddings, that offers both RC4 and plaintext. -/
def smallHandshake (payload : List UInt8) : Handshake where
  x := 5
  padA := ⟨[], Nat.zero_le _⟩
  padC := ⟨[], Nat.zero_le _⟩
  y := 7
  padB := ⟨[], Nat.zero_le _⟩
  padD := ⟨[], Nat.zero_le _⟩
  skey := List.replicate 20 7
  payload := payload
  provide := cryptoRc4 ||| cryptoPlaintext
  forceEncrypted := false
  ourHandshake := encodeHandshake (List.replicate 20 7) (List.replicate 20 9)
  handshake_len := PeerReader.length_encodeHandshake rfl rfl

theorem smallHandshake_unmarked (payload : List UInt8) :
    (smallHandshake payload).Unmarked Sha1.digest :=
  ⟨fun k hk => absurd hk k.not_lt_zero, fun k hk => absurd hk k.not_lt_zero⟩

theorem smallHandshake_not_plain (payload : List UInt8) :
    ¬ (smallHandshake payload).LooksPlain := by
  show (publicKey 5).take 20 ≠ plainHead
  decide +kernel

theorem smallHandshake_completes (payload : List UInt8)
    (h : payload.length % 65536 ≤ maxIa) :
    ∃ s oa ob, Duplex.Steps ((smallHandshake payload).start Sha1.digest) s ∧
      s.a = .done oa ∧ s.b = .done ob ∧ s.appA = [] :=
  completes Sha1.length_digest (smallHandshake_unmarked payload) h
    (smallHandshake_not_plain payload)
    (show isDegenerateKey (publicKey 5) = false by decide +kernel)
    (show isDegenerateKey (publicKey 7) = false by decide +kernel)
    (show isDegenerateKey (computeSharedSecret 5 (publicKey 7)) = false by decide +kernel)
    (.inl (show (cryptoRc4 ||| cryptoPlaintext) &&& cryptoRc4 ≠ 0 by decide))

/-- The two sides agree on a payload of three bytes. -/
theorem smallHandshake_agrees :
    ∃ s oa ob, Duplex.Steps ((smallHandshake [1, 2, 3]).start Sha1.digest) s ∧
      s.a = .done oa ∧ s.b = .done ob ∧ (smallHandshake [1, 2, 3]).Agree s oa ob := by
  obtain ⟨s, oa, ob, hrun, ha, hb, -⟩ := smallHandshake_completes [1, 2, 3] (by decide)
  exact ⟨s, oa, ob, hrun, ha, hb,
    (handshake_agrees_iff (smallHandshake [1, 2, 3]) Sha1.length_digest
      (smallHandshake_unmarked _) hrun ha hb).mpr ⟨by decide, smallHandshake_not_plain _⟩⟩

/-- The length of 65536 bytes is told as 0: both sides finish, and the responder has none of
them. -/
theorem longPayload_disagrees :
    ∃ s oa ob, Duplex.Steps ((smallHandshake (List.replicate 65536 0)).start Sha1.digest) s ∧
      s.a = .done oa ∧ s.b = .done ob ∧
        ¬ (smallHandshake (List.replicate 65536 0)).Agree s oa ob := by
  have hlen : (List.replicate 65536 (0 : UInt8)).length = 65536 := List.length_replicate
  obtain ⟨s, oa, ob, hrun, ha, hb, -⟩ := smallHandshake_completes
    (List.replicate 65536 0) (by rw [hlen]; decide)
  refine ⟨s, oa, ob, hrun, ha, hb, fun hagree => ?_⟩
  rcases Handshake.made_or_plain Sha1.length_digest (smallHandshake_unmarked _) hrun ha hb with
    ⟨-, pendingA, pendingB, hmade, -⟩ | ⟨hplain, -⟩
  · have hfits : (List.replicate 65536 (0 : UInt8)).length < 65536 :=
      Handshake.told_eq_iff.mp (hmade.told_eq hagree)
    rw [hlen] at hfits
    exact absurd hfits (Nat.lt_irrefl _)
  · exact smallHandshake_not_plain _ hplain

end XferRust.Bt.Mse
