import XferRust.Bt.Mse

/-! # What the two ends of an encrypted handshake agree on

What each routine has read when it finishes is cut at the marker and then into fields of known
lengths (`finishes_initiatorAnswer`, `finishes_responderOffer`).  As the marker does not occur in
the padding, the cuts fall where the other side has made them, and every field deciphers to what
was enciphered.
-/
namespace XferRust.Bt.Mse

open ByteProc Search

/-! ## Reading and scanning -/

/-- Bytes that are there and bytes that come, cut anew, with what comes after them. -/
theorem append_through {α : Type} {xs ys as bs : List α} (h : xs ++ ys = as ++ bs)
    {zs : List α} : xs ++ (ys ++ zs) = as ++ (bs ++ zs) := by
  rw [← List.append_assoc, h, List.append_assoc]

/-- What is taken is of the length asked for, and it is the next of what is there. -/
theorem finishes_readExactInto {n : Nat} {pending i w : List UInt8}
    {r : List UInt8 × List UInt8} (h : (readExactInto n pending).Finishes i w r) :
    r.1.length = n ∧ pending ++ i = r.1 ++ r.2 ∧ w = [] := by
  obtain ⟨i₁, i₂, w₁, w₂, more, rfl, rfl, hmore, rfl, rfl, rfl⟩ := finishes_bind.mp h
  obtain ⟨rfl, hlen, rfl⟩ := finishes_readExact hmore
  refine ⟨?_, ?_, rfl⟩
  · rw [List.length_append, List.length_take, hlen]
    omega
  · rw [List.append_nil]
    rcases Nat.le_total n pending.length with hn | hn
    · rw [Nat.sub_eq_zero_of_le hn] at hlen
      rw [List.length_eq_zero_iff.mp hlen, List.append_nil, List.append_nil,
        List.take_append_drop]
    · rw [List.take_of_length_le hn, List.drop_eq_nil_of_le hn, List.append_nil]

/-- Behind such a read. -/
theorem finishes_readExactInto_bind {α : Type} {n : Nat} {pending i w : List UInt8}
    {f : List UInt8 × List UInt8 → ByteProc IoError α} {a : α}
    (h : (readExactInto n pending >>= f).Finishes i w a) :
    ∃ taken left i' t, i = i' ++ t ∧ taken.length = n ∧ pending ++ i' = taken ++ left ∧
      (f (taken, left)).Finishes t w a := by
  obtain ⟨i', t, _, _, ⟨taken, left⟩, rfl, rfl, hread, hf⟩ := finishes_bind.mp h
  obtain ⟨hlen, heq, rfl⟩ := finishes_readExactInto hread
  exact ⟨taken, left, i', t, rfl, hlen, heq, hf⟩

/-- No marker begins in `dropped`, whatever comes behind. -/
def Scanned (marker dropped buf : List UInt8) : Prop :=
  ∀ k < dropped.length, ∀ more, ¬ marker <+: (dropped ++ buf ++ more).drop k

/-- Giving up what cannot be the beginning of a marker. -/
theorem Scanned.drop {marker dropped buf : List UInt8} (hne : marker ≠ [])
    (h : Scanned marker dropped buf) (hnone : position marker buf = none) (c : List UInt8) :
    Scanned marker (dropped ++ buf.take (buf.length - (marker.length - 1)))
      (buf.drop (buf.length - (marker.length - 1)) ++ c) := by
  intro k hk more hm
  have hall : dropped ++ buf.take (buf.length - (marker.length - 1)) ++
      (buf.drop (buf.length - (marker.length - 1)) ++ c) ++ more =
        dropped ++ buf ++ (c ++ more) := by
    simp only [List.append_assoc]
    rw [← List.append_assoc (buf.take _), List.take_append_drop]
  rw [hall] at hm
  rcases Nat.lt_or_ge k dropped.length with hlt | hge
  · exact h k hlt _ hm
  · have hmarker : 0 < marker.length := List.length_pos_iff.mpr hne
    rw [List.length_append, List.length_take] at hk
    rw [List.append_assoc, List.drop_append, List.drop_eq_nil_of_le hge, List.nil_append] at hm
    exact position_eq_none hne hnone _ (prefix_drop_of_append (by omega) hm)

/-- **The scan** gives back what was read behind the first marker. -/
theorem finishes_scanSync {marker buf dropped : List UInt8} {scanned : Nat}
    {i w leftover : List UInt8} (hne : marker ≠ []) (hs : Scanned marker dropped buf)
    (h : (scanSync marker buf scanned).Finishes i w leftover) :
    ∃ pre, FirstAt marker pre ∧ dropped ++ buf ++ i = pre ++ (marker ++ leftover) ∧ w = [] := by
  induction buf, scanned using scanSync.induct marker generalizing i dropped with
  | case1 buf scanned pos hpos =>
    unfold scanSync at h
    rw [hpos] at h
    obtain ⟨rfl, rfl, rfl⟩ := h
    obtain ⟨hmarker, hlt, hfirst⟩ := position_eq_some hpos
    obtain ⟨rest, hrest⟩ := hmarker
    have hbuf : buf = buf.take pos ++ (marker ++ buf.drop (pos + marker.length)) := by
      rw [← List.drop_drop, ← hrest, List.drop_left, hrest, List.take_append_drop]
    refine ⟨dropped ++ buf.take pos, ?_, ?_, rfl⟩
    · intro k hk hm
      rcases Nat.lt_or_ge k dropped.length with hlt' | hge
      · refine hs k hlt' [] (?_ : marker <+: _)
        rw [List.append_nil, hbuf, ← List.append_assoc, ← List.append_assoc]
        exact prefix_drop_append _ hm hne
      · rw [List.length_append, List.length_take] at hk
        rw [List.append_assoc, List.drop_append, List.drop_eq_nil_of_le hge,
          List.nil_append] at hm
        refine hfirst (k - dropped.length) (by omega) ?_
        rw [hbuf, ← List.append_assoc]
        exact prefix_drop_append _ hm hne
    · rw [List.append_nil, List.append_assoc, ← hbuf]
  | case2 buf scanned hpos =>
    rename_i keep safeEnd hover
    unfold scanSync at h
    rw [hpos] at h
    dsimp only at h
    rw [if_pos hover] at h
    exact h.elim
  | case3 buf scanned hpos =>
    rename_i keep safeEnd hover ih
    unfold scanSync at h
    rw [hpos] at h
    dsimp only at h
    rw [if_neg hover] at h
    obtain ⟨c, i', rfl, -, h⟩ := h
    dsimp only at h
    split at h
    · exact h.elim
    rename_i hc
    obtain ⟨pre, hfirst, heq, hw⟩ := ih c hc (hs.drop hne hpos c) h
    refine ⟨pre, hfirst, ?_, hw⟩
    rw [← heq]
    simp only [List.append_assoc]
    rw [← List.append_assoc (buf.take _), List.take_append_drop]

/-- A scan from nothing. -/
theorem finishes_scan {marker i w leftover : List UInt8} (hne : marker ≠ [])
    (h : (scanSync marker [] 0).Finishes i w leftover) :
    ∃ pre, FirstAt marker pre ∧ i = pre ++ (marker ++ leftover) ∧ w = [] := by
  obtain ⟨pre, hfirst, heq, hw⟩ := finishes_scanSync hne
    (fun k (hk : k < ([] : List UInt8).length) => absurd hk k.not_lt_zero) h
  exact ⟨pre, hfirst, heq, hw⟩

/-! ## The two answers -/

/-- **What the initiator reads behind the keys.**  `r` is the cipher it receives with. -/
theorem finishes_initiatorAnswer {provide : UInt32} {sendStream r : Rc4} {i w : List UInt8}
    {o : PeOutcome} (h : (initiatorAnswer provide sendStream r).Finishes i w o) :
    w = [] ∧ ∃ pre hdr padD hs leftover, FirstAt (r.enc vc) pre ∧
      i = pre ++ (r.enc vc ++ (hdr ++ (padD ++ (hs ++ leftover)))) ∧ hdr.length = 6 ∧
      padD.length = u16At ((r.after 8).enc hdr) 4 ∧ hs.length = btHandshakeLen ∧
      ((u32At ((r.after 8).enc hdr) &&& cryptoRc4 ≠ 0 ∧
          o = .encrypted sendStream (r.after (14 + padD.length + btHandshakeLen)) leftover
            ((r.after (14 + padD.length)).enc hs)) ∨
        (u32At ((r.after 8).enc hdr) &&& cryptoRc4 = 0 ∧ o = .plaintext leftover hs)) := by
  have hne : r.enc vc ≠ [] := List.length_pos_iff.mp (by rw [Rc4.length_enc]; decide)
  unfold initiatorAnswer at h
  simp only [Rc4.process_eq] at h
  obtain ⟨i₁, t₁, v₁, u₁, leftover, rfl, rfl, hscan, h₁⟩ := finishes_bind.mp h
  obtain ⟨pre, hfirst, rfl, rfl⟩ := finishes_scan hne hscan
  obtain ⟨hdr, pending₂, i₂, t₂, rfl, hlen₂, heq₂, h₂⟩ := finishes_readExactInto_bind h₁
  obtain ⟨-, h₃⟩ := finishes_rejectIf_bind h₂
  obtain ⟨padD, pending₄, i₄, t₄, rfl, hlen₄, heq₄, h₄⟩ := finishes_readExactInto_bind h₃
  obtain ⟨hs, pending₅, i₅, t₅, rfl, hlen₅, heq₅, h₅⟩ := finishes_readExactInto_bind h₄
  dsimp only at hlen₂ heq₂ hlen₄ heq₄ hlen₅ heq₅ h₅
  rw [hlen₂, hlen₅] at h₅
  simp only [Rc4.after_after] at h₅
  have hread : leftover ++ (i₂ ++ (i₄ ++ i₅)) = hdr ++ (padD ++ (hs ++ pending₅)) := by
    rw [append_through heq₂, append_through heq₄, heq₅]
  have hends : t₅ = [] ∧ u₁ = [] ∧
      ((u32At ((r.after 8).enc hdr) &&& cryptoRc4 ≠ 0 ∧
          o = .encrypted sendStream (r.after (14 + padD.length + btHandshakeLen)) pending₅
            ((r.after (14 + padD.length)).enc hs)) ∨
        (u32At ((r.after 8).enc hdr) &&& cryptoRc4 = 0 ∧ o = .plaintext pending₅ hs)) := by
    split at h₅
    · rename_i hrc4
      obtain ⟨ht, hu, ho⟩ := h₅
      exact ⟨ht, hu, .inl ⟨hrc4, ho.symm⟩⟩
    · rename_i hrc4
      split at h₅
      · obtain ⟨ht, hu, ho⟩ := h₅
        exact ⟨ht, hu, .inr ⟨Classical.not_not.mp hrc4, ho.symm⟩⟩
      · exact h₅.elim
  obtain ⟨rfl, rfl, hout⟩ := hends
  refine ⟨rfl, pre, hdr, padD, hs, pending₅, hfirst, ?_, hlen₂, hlen₄, hlen₅, hout⟩
  simp only [List.append_assoc, List.nil_append, List.append_nil, hread]

section Routines

variable {sha1 : List UInt8 → List UInt8}
variable {i skey w : List UInt8}

/-- **What the responder reads behind the keys.** -/
theorem finishes_responderOffer {shared : List UInt8} {o : Offer} (hsha : ∀ m, (sha1 m).length = 20)
    (h : (responderOffer sha1 shared skey).Finishes i w o) :
    w = [] ∧ ∃ pre skeyHash vcRead hdr padC iaLen ia leftover,
      FirstAt (req1Hash sha1 shared) pre ∧
      i = pre ++ (req1Hash sha1 shared ++ (skeyHash ++ (vcRead ++ (hdr ++ (padC ++
        (iaLen ++ (ia ++ leftover))))))) ∧
      skeyHash.length = 20 ∧ vcRead.length = 8 ∧ hdr.length = 6 ∧
      padC.length = u16At (((streamA sha1 shared skey).after 8).enc hdr) 4 ∧
      iaLen.length = 2 ∧
      ia.length = u16At (((streamA sha1 shared skey).after (14 + padC.length)).enc iaLen) 0 ∧
      ia.length ≤ maxIa ∧
      o = { sendStream := streamB sha1 shared skey
            recvStream := (streamA sha1 shared skey).after (16 + padC.length + ia.length)
            provide := u32At (((streamA sha1 shared skey).after 8).enc hdr)
            peerIa := ((streamA sha1 shared skey).after (16 + padC.length)).enc ia
            leftover } := by
  have hne : req1Hash sha1 shared ≠ [] :=
    List.length_pos_iff.mp (by rw [req1Hash, hsha]; decide)
  unfold responderOffer deriveRc4Streams at h
  simp only [Rc4.process_eq] at h
  obtain ⟨i₁, t₁, v₁, u₁, leftover, rfl, rfl, hscan, h₁⟩ := finishes_bind.mp h
  obtain ⟨pre, hfirst, rfl, rfl⟩ := finishes_scan hne hscan
  obtain ⟨skeyHash, pending₂, i₂, t₂, rfl, hlen₂, heq₂, h₂⟩ := finishes_readExactInto_bind h₁
  obtain ⟨-, h₃⟩ := finishes_rejectIf_bind h₂
  obtain ⟨vcRead, pending₄, i₄, t₄, rfl, hlen₄, heq₄, h₄⟩ := finishes_readExactInto_bind h₃
  obtain ⟨-, h₅⟩ := finishes_rejectIf_bind h₄
  obtain ⟨hdr, pending₆, i₆, t₆, rfl, hlen₆, heq₆, h₆⟩ := finishes_readExactInto_bind h₅
  obtain ⟨-, h₇⟩ := finishes_rejectIf_bind h₆
  obtain ⟨padC, pending₈, i₈, t₈, rfl, hlen₈, heq₈, h₈⟩ := finishes_readExactInto_bind h₇
  obtain ⟨iaLen, pending₉, i₉, t₉, rfl, hlen₉, heq₉, h₉⟩ := finishes_readExactInto_bind h₈
  obtain ⟨hfits, h₁₀⟩ := finishes_rejectIf_bind h₉
  obtain ⟨ia, pending₁₁, i₁₁, t₁₁, rfl, hlen₁₁, heq₁₁, h₁₁⟩ := finishes_readExactInto_bind h₁₀
  obtain ⟨rfl, rfl, rfl⟩ := h₁₁
  dsimp only at hlen₂ heq₂ hlen₄ heq₄ hlen₆ heq₆ hlen₈ heq₈ hlen₉ heq₉ hlen₁₁ heq₁₁ hfits ⊢
  rw [hlen₄] at hlen₈ hlen₁₁ hfits ⊢
  rw [hlen₆] at hlen₁₁ hfits ⊢
  rw [hlen₉]
  simp only [Rc4.after_after] at hlen₁₁ hfits ⊢
  refine ⟨rfl, pre, skeyHash, vcRead, hdr, padC, iaLen, ia, pending₁₁, hfirst, ?_, hlen₂, hlen₄,
    hlen₆, hlen₈, hlen₉, hlen₁₁, ?_, ?_⟩
  · simp only [List.append_assoc, List.nil_append, List.append_nil]
    rw [append_through heq₂, append_through heq₄, append_through heq₆, append_through heq₈,
      append_through heq₉, heq₁₁]
  · rw [hlen₁₁]
    exact Nat.le_of_not_lt (of_decide_eq_false hfits)
  · have hpos : 8 + 6 + padC.length + 2 = 16 + padC.length := by omega
    simp only [hpos]

/-- **What the responder answers**, for what it has read. -/
theorem finishes_responderAnswer {o : Offer} {padD : Pad} {ourHandshake : List UInt8}
    {forceEncrypted : Bool} {out : PeOutcome}
    (h : (responderAnswer o padD ourHandshake forceEncrypted).Finishes i w out) :
    i = [] ∧
      ((o.provide &&& cryptoRc4 ≠ 0 ∧
          w = o.sendStream.enc (answer cryptoRc4 padD.bytes) ++
            (o.sendStream.after (answer cryptoRc4 padD.bytes).length).enc ourHandshake ∧
          out = .encrypted
            (o.sendStream.after ((answer cryptoRc4 padD.bytes).length + ourHandshake.length))
            o.recvStream o.leftover o.peerIa) ∨
        (o.provide &&& cryptoRc4 = 0 ∧ o.provide &&& cryptoPlaintext ≠ 0 ∧
          w = o.sendStream.enc (answer cryptoPlaintext padD.bytes) ++ ourHandshake ∧
          out = .plaintext o.leftover o.peerIa)) := by
  unfold responderAnswer at h
  simp only [Rc4.process_eq] at h
  split at h
  · rename_i hrc4
    obtain ⟨u₁, rfl, h₁⟩ := finishes_writeAll_bind h
    obtain ⟨u₂, rfl, h₂⟩ := finishes_writeAll_bind h₁
    obtain ⟨rfl, rfl, rfl⟩ := h₂
    refine ⟨rfl, .inl ⟨hrc4, ?_, ?_⟩⟩
    · rw [List.append_nil]
    · rw [Rc4.after_after]
  · rename_i hrc4
    split at h
    · rename_i hplain
      obtain ⟨u₁, rfl, h₁⟩ := finishes_writeAll_bind h
      obtain ⟨u₂, rfl, h₂⟩ := finishes_writeAll_bind h₁
      obtain ⟨rfl, rfl, rfl⟩ := h₂
      refine ⟨rfl, .inr ⟨Classical.not_not.mp hrc4, hplain.2, ?_, rfl⟩⟩
      rw [List.append_nil]
    · exact h.elim

/-! ## The two routines -/

/-- **What the initiator does**: it writes the offer for the key it has read, and then reads the
answer. -/
theorem finishes_initiator {x : Nat} {padA padC : Pad} {payload : List UInt8} {provide : UInt32}
    {o : PeOutcome} (h : (initiator sha1 x padA padC skey payload provide).Finishes i w o) :
    ∃ yb i', i = yb ++ i' ∧ yb.length = keyLen ∧
      w = publicKey x ++ (padA.bytes ++
        (req1Hash sha1 (computeSharedSecret x yb) ++
          (obfuscatedSkeyHash sha1 (computeSharedSecret x yb) skey ++
            (streamA sha1 (computeSharedSecret x yb) skey).enc
              (offer provide padC.bytes payload ++ payload)))) ∧
      (initiatorAnswer provide
        ((streamA sha1 (computeSharedSecret x yb) skey).after
          (offer provide padC.bytes payload ++ payload).length)
        (streamB sha1 (computeSharedSecret x yb) skey)).Finishes i' [] o := by
  unfold initiator deriveRc4Streams at h
  simp only [Rc4.process_eq] at h
  obtain ⟨u₁, rfl, h₁⟩ := finishes_writeAll_bind h
  obtain ⟨yb, t₂, rfl, hlen, h₂⟩ := finishes_readExact_bind h₁
  obtain ⟨-, h₃⟩ := finishes_rejectIf_bind h₂
  obtain ⟨-, h₄⟩ := finishes_rejectIf_bind h₃
  obtain ⟨u₅, rfl, h₅⟩ := finishes_writeAll_bind h₄
  obtain ⟨u₆, rfl, h₆⟩ := finishes_writeAll_bind h₅
  obtain ⟨u₇, rfl, h₇⟩ := finishes_writeAll_bind h₆
  rw [Rc4.after_after] at h₇
  obtain ⟨rfl, -⟩ := finishes_initiatorAnswer h₇
  refine ⟨yb, t₂, rfl, hlen, ?_, ?_⟩
  · simp only [List.append_assoc, List.nil_append, List.append_nil]
    rw [Rc4.enc_append]
  · rw [List.length_append]
    exact h₇

/-- **What the responder does**: it takes the first bytes for a plaintext handshake, or it reads
the offer and answers it. -/
theorem finishes_responder {y : Nat} {padB padD : Pad} {ourHandshake : List UInt8}
    {forceEncrypted : Bool} {o : PeOutcome} (hsha : ∀ m, (sha1 m).length = 20)
    (h : (responder sha1 y padB padD skey ourHandshake forceEncrypted).Finishes i w o) :
    (i = plainHead ∧ w = [] ∧ o = .plaintext plainHead []) ∨
      ∃ ya i' w' offer, i = ya ++ i' ∧ ya.length = keyLen ∧ ya.take 20 ≠ plainHead ∧
        w = publicKey y ++ (padB.bytes ++ w') ∧
        (responderOffer sha1 (computeSharedSecret y ya) skey).Finishes i' [] offer ∧
        (responderAnswer offer padD ourHandshake forceEncrypted).Finishes [] w' o := by
  unfold responder at h
  obtain ⟨head, t₁, rfl, hlen₁, h₁⟩ := finishes_readExact_bind h
  split at h₁
  · rename_i hplain
    subst hplain
    obtain ⟨-, h₂⟩ := finishes_rejectIf_bind h₁
    obtain ⟨rfl, rfl, rfl⟩ := h₂
    exact .inl ⟨rfl, rfl, rfl⟩
  · rename_i hplain
    obtain ⟨rest, t₂, rfl, hlen₂, h₂⟩ := finishes_readExact_bind h₁
    obtain ⟨-, h₃⟩ := finishes_rejectIf_bind h₂
    obtain ⟨u₄, rfl, h₄⟩ := finishes_writeAll_bind h₃
    obtain ⟨-, h₅⟩ := finishes_rejectIf_bind h₄
    obtain ⟨i₆, t₆, v₆, u₆, offer, rfl, rfl, hoffer, h₆⟩ := finishes_bind.mp h₅
    obtain ⟨rfl, -⟩ := finishes_responderOffer hsha hoffer
    obtain ⟨rfl, -⟩ := finishes_responderAnswer h₆
    refine .inr ⟨head ++ rest, i₆, u₆, offer, ?_, ?_, ?_, ?_, hoffer, h₆⟩
    · simp only [List.append_assoc, List.nil_append, List.append_nil]
    · rw [List.length_append, hlen₁, hlen₂]
      rfl
    · rwa [List.take_left' hlen₁]
    · simp only [List.append_assoc, List.nil_append]

end Routines

/-! ## One handshake -/

/-- What the two sides bring to a handshake for one torrent. -/
structure Handshake where
  /-- The private key and the paddings of the initiator. -/
  x : Nat
  padA : Pad
  padC : Pad
  /-- The private key and the paddings of the responder. -/
  y : Nat
  padB : Pad
  padD : Pad
  skey : List UInt8
  payload : List UInt8
  provide : UInt32
  forceEncrypted : Bool
  ourHandshake : List UInt8
  /-- The responder answers with a handshake of the fixed length. -/
  handshake_len : ourHandshake.length = btHandshakeLen

namespace Handshake

variable (sha1 : List UInt8 → List UInt8) (c : Handshake)

/-- The connection before either side has done anything. -/
def start : Duplex IoError PeOutcome :=
  Duplex.start (initiator sha1 c.x c.padA c.padC c.skey c.payload c.provide)
    (responder sha1 c.y c.padB c.padD c.skey c.ourHandshake c.forceEncrypted)

/-- The shared secret. -/
def shared : List UInt8 := computeSharedSecret c.x (publicKey c.y)

/-- Neither marker begins within the padding before it. -/
structure Unmarked : Prop where
  req1 : FirstAt (req1Hash sha1 c.shared) c.padA.bytes
  vc : FirstAt ((streamB sha1 c.shared c.skey).enc vc) c.padB.bytes

/-- The public key of the initiator begins like a plaintext handshake. -/
def LooksPlain : Prop := (publicKey c.x).take 20 = plainHead

/-- What two outcomes agree on, in a state `s` of the connection: on encryption, on the payloads,
and, with the bytes read too far and those on the way counted, on where each stream stands.  Of
an encrypted stream the cipher that one side sends with is the one that the other receives
with, at the same position. -/
def Agree (s : Duplex IoError PeOutcome) : PeOutcome → PeOutcome → Prop
  | .encrypted sendA recvA pendingA iaB, .encrypted sendB recvB pendingB iaA =>
    iaA = c.payload ∧ iaB = c.ourHandshake ∧ sendA = recvB ∧ sendB = recvA ∧
      pendingB ++ s.ab = s.appA ∧ pendingA ++ s.ba = s.appB
  | .plaintext pendingA iaB, .plaintext pendingB iaA =>
    iaA = c.payload ∧ iaB = c.ourHandshake ∧
      pendingB ++ s.ab = s.appA ∧ pendingA ++ s.ba = s.appB
  | _, _ => False

end Handshake

/-! ## Fields -/

theorem u32At_ofU32 (x : UInt32) (rest : List UInt8) : u32At (BigEndian.ofU32 x ++ rest) = x := by
  have hx := x.toNat_lt
  unfold u32At
  rw [List.take_left' (show (BigEndian.ofU32 x).length = 4 from rfl)]
  apply UInt32.toNat.inj
  simp only [BigEndian.toNat, BigEndian.ofU32, List.foldl_cons, List.foldl_nil,
    UInt8.toNat_ofNat', UInt32.toNat_ofNat']
  omega

/-- A length is read back from its two bytes up to the range of a `u16`. -/
theorem u16At_lenBytes (pre bytes : List UInt8) :
    u16At (pre ++ lenBytes bytes) pre.length = bytes.length % 65536 := by
  unfold u16At lenBytes
  rw [List.drop_left]
  simp only [BigEndian.toNat, BigEndian.ofU16, List.take, List.foldl_cons, List.foldl_nil,
    UInt8.toNat_ofNat', UInt16.toNat_ofNat']
  omega

theorem Pad.length_mod (pad : Pad) : pad.bytes.length % 65536 = pad.bytes.length :=
  Nat.mod_eq_of_lt (Nat.lt_of_le_of_lt pad.short (by decide))

theorem length_offer (provide : UInt32) (padC payload : List UInt8) :
    (offer provide padC payload).length = 16 + padC.length := by
  unfold offer
  simp only [List.length_append]
  rw [show vc.length = 8 from rfl, show (BigEndian.ofU32 provide).length = 4 from rfl,
    show (lenBytes padC).length = 2 from rfl, show (lenBytes payload).length = 2 from rfl]
  omega

/-- The offer in the fields that the responder reads. -/
theorem enc_offer (r : Rc4) (provide : UInt32) (padC payload : List UInt8) :
    r.enc (offer provide padC payload) =
      r.enc vc ++ ((r.after 8).enc (BigEndian.ofU32 provide ++ lenBytes padC) ++
        ((r.after 14).enc padC ++ (r.after (14 + padC.length)).enc (lenBytes payload))) := by
  have hhdr : (BigEndian.ofU32 provide ++ lenBytes padC).length = 6 := rfl
  have htext : offer provide padC payload =
      vc ++ ((BigEndian.ofU32 provide ++ lenBytes padC) ++ (padC ++ lenBytes payload)) := by
    simp only [offer, List.append_assoc]
  rw [htext, Rc4.enc_append r vc, Rc4.enc_append _ (BigEndian.ofU32 provide ++ lenBytes padC),
    Rc4.enc_append _ padC, show vc.length = 8 from rfl, hhdr, Rc4.after_after, Rc4.after_after]

/-- The payload behind the offer, as far as `k` and from there on. -/
theorem enc_offer_payload (r : Rc4) (provide : UInt32) (padC : List UInt8) {payload : List UInt8}
    {k : Nat} (hk : k ≤ payload.length) :
    r.enc (offer provide padC payload ++ payload) =
      r.enc (offer provide padC payload) ++
        ((r.after (16 + padC.length)).enc (payload.take k) ++
          (r.after (16 + padC.length + k)).enc (payload.drop k)) := by
  have hsplit := Rc4.enc_append (r.after (16 + padC.length)) (payload.take k) (payload.drop k)
  rw [List.take_append_drop, List.length_take, Nat.min_eq_left hk, Rc4.after_after] at hsplit
  rw [Rc4.enc_append, length_offer, hsplit]

/-- The answer in the fields that the initiator reads. -/
theorem enc_answer (r : Rc4) (select : UInt32) (padD : List UInt8) :
    r.enc (answer select padD) =
      r.enc vc ++ ((r.after 8).enc (BigEndian.ofU32 select ++ lenBytes padD) ++
        (r.after 14).enc padD) := by
  have htext : answer select padD =
      vc ++ ((BigEndian.ofU32 select ++ lenBytes padD) ++ padD) := by
    simp only [answer, List.append_assoc]
  have hhdr : (BigEndian.ofU32 select ++ lenBytes padD).length = 6 := rfl
  rw [htext, Rc4.enc_append r vc, Rc4.enc_append _ (BigEndian.ofU32 select ++ lenBytes padD),
    show vc.length = 8 from rfl, hhdr, Rc4.after_after]

theorem length_answer (select : UInt32) (padD : List UInt8) :
    (answer select padD).length = 14 + padD.length := by
  unfold answer
  simp only [List.length_append]
  rw [show vc.length = 8 from rfl, show (BigEndian.ofU32 select).length = 4 from rfl,
    show (lenBytes padD).length = 2 from rfl]

theorem length_enc_vc (r : Rc4) : (r.enc vc).length = 8 := by
  rw [Rc4.length_enc]
  rfl

theorem length_enc_header (r : Rc4) (x : UInt32) (bytes : List UInt8) :
    (r.enc (BigEndian.ofU32 x ++ lenBytes bytes)).length = 6 := by
  rw [Rc4.length_enc]
  rfl

theorem length_enc_lenBytes (r : Rc4) (bytes : List UInt8) :
    (r.enc (lenBytes bytes)).length = 2 := by
  rw [Rc4.length_enc]
  rfl

section Reading

variable {sha1 : List UInt8 → List UInt8}

/-- **The responder reads the offer that the initiator wrote**, with as much of the payload as
its length says in a `u16`; what it leaves is the rest of what the initiator wrote. -/
theorem offer_read (hsha : ∀ m, (sha1 m).length = 20) {shared skey padA payload : List UInt8}
    {padC : Pad} {provide : UInt32} {i ab appA : List UInt8} {o : Offer}
    (hfresh : FirstAt (req1Hash sha1 shared) padA)
    (h : (responderOffer sha1 shared skey).Finishes i [] o)
    (heq : i ++ ab = padA ++ (req1Hash sha1 shared ++ (obfuscatedSkeyHash sha1 shared skey ++
      ((streamA sha1 shared skey).enc (offer provide padC.bytes payload ++ payload) ++ appA)))) :
    let k := payload.length % 65536
    let r := (streamA sha1 shared skey).after (16 + padC.bytes.length)
    k ≤ maxIa ∧ o.provide = provide ∧ o.peerIa = payload.take k ∧
      o.sendStream = streamB sha1 shared skey ∧ o.recvStream = r.after k ∧
      o.leftover ++ ab = (r.after k).enc (payload.drop k) ++ appA := by
  intro k r
  obtain ⟨-, pre, skeyHash, vcRead, hdr, padC', iaLen, ia, leftover, hfirst, rfl, hskeyLen,
    hvcLen, hhdrLen, hpadLen, hiaLenLen, hiaLen, hfits, rfl⟩ := finishes_responderOffer hsha h
  have hobf : (obfuscatedSkeyHash sha1 shared skey).length = 20 := by
    rw [obfuscatedSkeyHash, List.length_zipWith, req2Hash, req3Hash, hsha, hsha]
    rfl
  rw [List.append_assoc, List.append_assoc] at heq
  obtain ⟨rfl, h₀⟩ := hfirst.unique hfresh heq
  have hk : (payload.take k).length = k := by
    rw [List.length_take]
    exact Nat.min_eq_left (Nat.mod_le _ _)
  rw [enc_offer_payload _ _ _ (Nat.mod_le payload.length 65536), enc_offer] at h₀
  simp only [List.append_assoc] at h₀
  obtain ⟨-, h₁⟩ := List.append_inj h₀ (hskeyLen.trans hobf.symm)
  obtain ⟨-, h₂⟩ := List.append_inj h₁ (hvcLen.trans (length_enc_vc _).symm)
  obtain ⟨hhdr, h₃⟩ := List.append_inj h₂ (hhdrLen.trans (length_enc_header _ _ _).symm)
  rw [hhdr, Rc4.enc_enc] at hpadLen ⊢
  rw [show 4 = (BigEndian.ofU32 provide).length from rfl, u16At_lenBytes, padC.length_mod]
    at hpadLen
  obtain ⟨-, h₄⟩ := List.append_inj h₃ (hpadLen.trans (Rc4.length_enc _ _).symm)
  obtain ⟨hlen, h₅⟩ := List.append_inj h₄ (hiaLenLen.trans (length_enc_lenBytes _ _).symm)
  rw [hlen, hpadLen, Rc4.enc_enc] at hiaLen
  have hiaLen' : ia.length = k := hiaLen.trans (u16At_lenBytes [] payload)
  obtain ⟨hia, h₆⟩ := List.append_inj h₅
    (hiaLen'.trans ((Rc4.length_enc _ _).trans hk).symm)
  rw [← Rc4.after_after] at h₆
  refine ⟨hiaLen' ▸ hfits, u32At_ofU32 provide _, ?_, rfl, ?_, h₆⟩
  · dsimp only
    rw [hpadLen, hia]
    exact Rc4.enc_enc r _
  · dsimp only
    rw [hpadLen, hiaLen', ← Rc4.after_after]

/-- **The initiator reads the answer that the responder wrote.** -/
theorem answer_read {r sendStream : Rc4} {padB hs : List UInt8} {padD : Pad}
    {provide select : UInt32} {i ba appB : List UInt8} {o : PeOutcome}
    (hfresh : FirstAt (r.enc vc) padB) (hhs : hs.length = btHandshakeLen)
    (h : (initiatorAnswer provide sendStream r).Finishes i [] o)
    (heq : i ++ ba = padB ++ (r.enc (answer select padD.bytes) ++ (hs ++ appB))) :
    ∃ leftover, leftover ++ ba = appB ∧
      ((select &&& cryptoRc4 ≠ 0 ∧
          o = .encrypted sendStream (r.after (14 + padD.bytes.length + btHandshakeLen)) leftover
            ((r.after (14 + padD.bytes.length)).enc hs)) ∨
        (select &&& cryptoRc4 = 0 ∧ o = .plaintext leftover hs)) := by
  obtain ⟨-, pre, hdr, padD', hs', leftover, hfirst, rfl, hhdrLen, hpadLen, hhsLen, hout⟩ :=
    finishes_initiatorAnswer h
  rw [enc_answer, List.append_assoc, List.append_assoc, List.append_assoc] at heq
  obtain ⟨-, h₀⟩ := hfirst.unique hfresh heq
  simp only [List.append_assoc] at h₀
  obtain ⟨hhdr, h₁⟩ := List.append_inj h₀ (hhdrLen.trans (length_enc_header _ _ _).symm)
  rw [hhdr, Rc4.enc_enc] at hpadLen hout
  rw [show 4 = (BigEndian.ofU32 select).length from rfl, u16At_lenBytes, padD.length_mod]
    at hpadLen
  rw [u32At_ofU32] at hout
  obtain ⟨-, h₂⟩ := List.append_inj h₁ (hpadLen.trans (Rc4.length_enc _ _).symm)
  obtain ⟨rfl, h₃⟩ := List.append_inj h₂ (hhsLen.trans hhs.symm)
  rw [hpadLen] at hout
  exact ⟨leftover, h₃, hout⟩

end Reading

/-! ## Both have finished -/

namespace Handshake

variable {sha1 : List UInt8 → List UInt8} {c : Handshake} {s : Duplex IoError PeOutcome}
  {oa ob : PeOutcome}

/-- How much of the payload its length field says. -/
def told (c : Handshake) : Nat := c.payload.length % 65536

theorem told_le : c.told ≤ c.payload.length := Nat.mod_le _ _

/-- The two outcomes of a handshake that both sides have made: the same choice, the ciphers where
the texts end, and the payload as far as its length was told. -/
def Made (sha1 : List UInt8 → List UInt8) (c : Handshake) (pendingA pendingB : List UInt8)
    (oa ob : PeOutcome) : Prop :=
  let rA := streamA sha1 c.shared c.skey
  let rB := streamB sha1 c.shared c.skey
  let endB := 14 + c.padD.bytes.length + btHandshakeLen
  (oa = .encrypted (rA.after (16 + c.padC.bytes.length + c.payload.length)) (rB.after endB)
      pendingA c.ourHandshake ∧
    ob = .encrypted (rB.after endB) (rA.after (16 + c.padC.bytes.length + c.told))
      pendingB (c.payload.take c.told)) ∨
  (oa = .plaintext pendingA c.ourHandshake ∧ ob = .plaintext pendingB (c.payload.take c.told))

/-- **Two finished routines** have either made the handshake, and then every byte of the two
streams that neither has read is one that came after it; or the responder took the initiator's key
for a plaintext handshake. -/
theorem made_or_plain (hsha : ∀ m, (sha1 m).length = 20) (hm : c.Unmarked sha1)
    (hrun : Duplex.Steps (c.start sha1) s) (ha : s.a = .done oa) (hb : s.b = .done ob) :
    (¬ c.LooksPlain ∧ ∃ pendingA pendingB, Made sha1 c pendingA pendingB oa ob ∧
      pendingA ++ s.ba = s.appB ∧
      pendingB ++ s.ab = ((streamA sha1 c.shared c.skey).after
        (16 + c.padC.bytes.length + c.told)).enc (c.payload.drop c.told) ++ s.appA) ∨
    (c.LooksPlain ∧ ob = .plaintext plainHead [] ∧
      c.payload.length + s.appA.length < (plainHead ++ s.ab).length) := by
  obtain ⟨iA, wA, iB, wB, hfa, hfb, htoB, htoA⟩ := hrun.finished ha hb
  obtain ⟨yb, iA', rfl, hyb, rfl, hans⟩ := finishes_initiator hfa
  rcases finishes_responder hsha hfb with
    ⟨rfl, rfl, rfl⟩ | ⟨ya, iB', wB', offer, rfl, hya, hnot, rfl, hoffer, hansB⟩
  · refine .inr ⟨?_, rfl, ?_⟩
    · have htake := congrArg (List.take 20) htoB
      rw [List.take_left' (by decide), List.append_assoc, List.take_append_of_le_length
        (by rw [length_publicKey]; decide)] at htake
      exact htake.symm
    · rw [htoB]
      simp only [List.length_append, length_publicKey, Rc4.length_enc]
      unfold keyLen
      omega
  · rw [List.append_assoc, List.append_assoc] at htoB htoA
    obtain ⟨rfl, hB⟩ := List.append_inj htoB (hya.trans (length_publicKey _).symm)
    obtain ⟨rfl, hA⟩ := List.append_inj htoA (hyb.trans (length_publicKey _).symm)
    rw [computeSharedSecret_comm] at hoffer
    change (responderOffer sha1 c.shared c.skey).Finishes _ _ _ at hoffer
    change (initiatorAnswer c.provide ((streamA sha1 c.shared c.skey).after _)
      (streamB sha1 c.shared c.skey)).Finishes _ _ _ at hans
    simp only [List.append_assoc] at hA hB
    obtain ⟨-, hprovide, hia, hsend, hrecv, hleft⟩ := offer_read hsha hm.req1 hoffer hB
    rw [Rc4.after_after] at hrecv hleft
    rw [List.length_append, length_offer] at hans
    obtain ⟨-, hout⟩ := finishes_responderAnswer hansB
    rw [hsend, hrecv, hia, c.handshake_len, length_answer] at hout
    refine .inl ⟨hnot, ?_⟩
    rcases hout with ⟨hrc4, rfl, rfl⟩ | ⟨hrc4, hplain, rfl, rfl⟩
    · rw [List.append_assoc] at hA
      obtain ⟨leftover, hleftA, hchoice⟩ := answer_read hm.vc
        ((Rc4.length_enc _ _).trans c.handshake_len) hans hA
      rcases hchoice with ⟨-, rfl⟩ | ⟨hno, -⟩
      · refine ⟨leftover, offer.leftover, .inl ⟨?_, rfl⟩, hleftA, hleft⟩
        rw [Rc4.enc_enc]
      · exact absurd hno (by decide)
    · rw [List.append_assoc] at hA
      obtain ⟨leftover, hleftA, hchoice⟩ := answer_read hm.vc c.handshake_len hans hA
      rcases hchoice with ⟨hrc4', -⟩ | ⟨-, rfl⟩
      · exact absurd rfl hrc4'
      · exact ⟨leftover, offer.leftover, .inr ⟨rfl, rfl⟩, hleftA, hleft⟩

/-- The two outcomes of a made handshake agree when the whole payload was told. -/
theorem Made.agree {pendingA pendingB : List UInt8} (h : Made sha1 c pendingA pendingB oa ob)
    (htold : c.told = c.payload.length) (hA : pendingA ++ s.ba = s.appB)
    (hB : pendingB ++ s.ab = s.appA) : c.Agree s oa ob := by
  have htake : c.payload.take c.told = c.payload := by rw [htold, List.take_length]
  rcases h with ⟨rfl, rfl⟩ | ⟨rfl, rfl⟩
  · exact ⟨htake, rfl, by rw [htold], rfl, hB, hA⟩
  · exact ⟨htake, rfl, hB, hA⟩

/-- Two outcomes that agree have the whole payload. -/
theorem Made.told_eq {pendingA pendingB : List UInt8} (h : Made sha1 c pendingA pendingB oa ob)
    (hagree : c.Agree s oa ob) : c.told = c.payload.length := by
  have htake : c.payload.take c.told = c.payload := by
    rcases h with ⟨rfl, rfl⟩ | ⟨rfl, rfl⟩
    · exact hagree.1
    · exact hagree.1
  have hlen := congrArg List.length htake
  rw [List.length_take] at hlen
  have hle := c.told_le
  omega

theorem told_eq_iff : c.told = c.payload.length ↔ c.payload.length < 65536 := by
  unfold told
  constructor
  · intro h
    rw [← h]
    exact Nat.mod_lt _ (by decide)
  · exact Nat.mod_eq_of_lt

end Handshake

end XferRust.Bt.Mse
