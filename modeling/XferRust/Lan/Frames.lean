import XferRust.Lib.BigEndian

/-! # Encrypted frames of a LAN transfer

A frame is its length in 32 bits and a payload: a nonce, the ciphertext and a tag.  The length 0
stands for the end and has no payload.

The cipher is ideal: under the key of the session a payload opens exactly if one of the two sides
has sealed it, and it opens to what was sealed.  What both sides have sealed is the log of the
session; a nonce is random, so no payload comes twice.
-/
namespace XferRust.Lan

/-- `NONCE_LEN`. -/
def nonceLen : Nat := 12

/-- `TAG_LEN`. -/
def tagLen : Nat := 16

/-- `MAX_PLAINTEXT`. -/
def maxPlaintext : Nat := 262144

/-- `MAX_FRAME`. -/
def maxFrame : Nat := maxPlaintext + nonceLen + tagLen

/-! ## The cipher -/

/-- What was sealed under the key of the session: payloads with their plaintexts. -/
abbrev SealLog := List (List UInt8 × List UInt8)

/-- A payload opens if it was sealed. -/
def SealLog.find (log : SealLog) (payload : List UInt8) : Option (List UInt8) :=
  (List.find? (fun e => e.1 = payload) log).map Prod.snd

/-- `seal`: the payload is given by the nonce that was drawn. -/
def SealLog.seal (log : SealLog) (payload plaintext : List UInt8) : Option SealLog :=
  if maxPlaintext < plaintext.length then none
  else if payload.length = nonceLen + plaintext.length + tagLen ∧ log.find payload = none then
    some (log ++ [(payload, plaintext)])
  else none

/-- `open`. -/
def SealLog.open (log : SealLog) (payload : List UInt8) : Option (List UInt8) :=
  if payload.length < nonceLen + tagLen then none else log.find payload

variable {log : SealLog} {payload plaintext : List UInt8}

theorem SealLog.mem_of_open (h : log.open payload = some plaintext) :
    (payload, plaintext) ∈ log := by
  unfold SealLog.open at h
  split at h
  · cases h
  · obtain ⟨e, he, rfl⟩ := Option.map_eq_some_iff.mp h
    have hkey : e.1 = payload := by
      have hfound := List.find?_some he
      exact of_decide_eq_true hfound
    rw [← hkey]
    exact List.mem_of_find?_eq_some he

/-- What sealing adds to the log. -/
theorem SealLog.seal_eq_some {log' : SealLog} (h : log.seal payload plaintext = some log') :
    log' = log ++ [(payload, plaintext)] := by
  unfold SealLog.seal at h
  split at h
  · cases h
  · split at h
    · exact (Option.some.inj h).symm
    · cases h

/-- What was sealed opens. -/
theorem SealLog.open_sealed {log' : SealLog} (h : log.seal payload plaintext = some log') :
    log'.open payload = some plaintext := by
  unfold SealLog.seal at h
  split at h
  · cases h
  · split at h
    · rename_i hfresh
      obtain rfl := Option.some.inj h
      have hnone : List.find? (fun e => decide (e.1 = payload)) log = none :=
        Option.map_eq_none_iff.mp hfresh.2
      unfold SealLog.open SealLog.find
      rw [if_neg (by rw [hfresh.1]; omega), List.find?_append, hnone, Option.none_or,
        List.find?_cons_of_pos (by simp)]
      rfl
    · cases h

/-! ## Framing -/

/-- `write_frame`, of a sealed payload. -/
def writeFrame (payload : List UInt8) : List UInt8 :=
  BigEndian.ofNat 4 payload.length ++ payload

/-- `write_eof`. -/
def writeEof : List UInt8 := BigEndian.ofNat 4 0

/-- What `read_frame` finds in what has come so far. -/
inductive FrameRead where
  /-- It waits for more. -/
  | more
  /-- The end frame. -/
  | eof (rest : List UInt8)
  /-- The length is above the limit. -/
  | tooLong
  | payload (payload rest : List UInt8)

/-- `read_frame`. -/
def readFrame (stream : List UInt8) : FrameRead :=
  if stream.length < 4 then .more
  else
    let len := BigEndian.toNat (stream.take 4)
    let rest := stream.drop 4
    if len = 0 then .eof rest
    else if maxFrame < len then .tooLong
    else if rest.length < len then .more
    else .payload (rest.take len) (rest.drop len)

theorem readFrame_writeEof (rest : List UInt8) : readFrame (writeEof ++ rest) = .eof rest := by
  have hlen : (writeEof ++ rest).length = 4 + rest.length := by
    rw [writeEof, List.length_append, BigEndian.length_ofNat]
  have hhead : (writeEof ++ rest).take 4 = writeEof := List.take_left' (BigEndian.length_ofNat 4 0)
  have hrest : (writeEof ++ rest).drop 4 = rest := List.drop_left' (BigEndian.length_ofNat 4 0)
  have hnum : BigEndian.toNat writeEof = 0 := by decide
  unfold readFrame
  rw [hlen, if_neg (by omega), hhead, hrest, hnum]
  rfl

/-- **A frame is read as it was written.** -/
theorem readFrame_writeFrame (hpos : 0 < payload.length) (hmax : payload.length ≤ maxFrame)
    (rest : List UInt8) : readFrame (writeFrame payload ++ rest) = .payload payload rest := by
  have hlen : (writeFrame payload ++ rest).length = 4 + payload.length + rest.length := by
    rw [writeFrame, List.length_append, List.length_append, BigEndian.length_ofNat]
  have hhead : (writeFrame payload ++ rest).take 4 = BigEndian.ofNat 4 payload.length := by
    rw [writeFrame, List.append_assoc]
    exact List.take_left' (BigEndian.length_ofNat 4 _)
  have hrest : (writeFrame payload ++ rest).drop 4 = payload ++ rest := by
    rw [writeFrame, List.append_assoc]
    exact List.drop_left' (BigEndian.length_ofNat 4 _)
  have hnum : BigEndian.toNat (BigEndian.ofNat 4 payload.length) = payload.length :=
    BigEndian.toNat_ofNat (Nat.lt_of_le_of_lt hmax (by decide))
  unfold readFrame
  rw [hlen, if_neg (by omega), hhead, hrest, hnum]
  dsimp only
  rw [if_neg (by omega), if_neg (Nat.not_lt.mpr hmax), List.length_append, if_neg (by omega),
    List.take_left, List.drop_left]

end XferRust.Lan
