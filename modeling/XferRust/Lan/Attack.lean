import XferRust.Lan.Integrity

/-! # What an adversary can bring about

Every file that is put together from blocks of the sender and has the declared size can be had: the
adversary lets the sender send all its blocks, puts the frames of those that it wants before the
receiver, and makes up the end.  Both sides are done then (`every_assembly`).  With more than one
block this is another file than that of the sender, as soon as the blocks can be moved:
`moved_blocks`.
-/
namespace XferRust.Lan

variable {receipts : Receipts} {sent : Sent}

/-! ## Runs -/

variable {l : Link} {n : Nat} {c : List UInt8} {cs : List (List UInt8)}

theorem run_append {m : Link} {es fs : List Event} (h : l.run receipts sent es = some m) :
    l.run receipts sent (es ++ fs) = m.run receipts sent fs := by
  induction es generalizing l with
  | nil =>
    obtain rfl := Option.some.inj h
    rfl
  | cons e es ih =>
    obtain ⟨k, hk, hrest⟩ := Option.bind_eq_some_iff.mp h
    show (l.step receipts sent e).bind _ = _
    rw [hk]
    exact ih hrest

theorem run_one {m : Link} {e : Event} (h : l.step receipts sent e = some m) :
    l.run receipts sent [e] = some m := by
  show (l.step receipts sent e).bind _ = _
  rw [h]
  rfl

/-! ## Payloads -/

/-- A payload for a plaintext, with the nonce of a number. -/
def payloadOf (n : Nat) (plain : List UInt8) : List UInt8 :=
  BigEndian.ofNat nonceLen n ++ List.replicate (plain.length + tagLen) 0

theorem length_payloadOf (n : Nat) (plain : List UInt8) :
    (payloadOf n plain).length = nonceLen + plain.length + tagLen := by
  rw [payloadOf, List.length_append, BigEndian.length_ofNat, List.length_replicate, Nat.add_assoc]

/-- The nonce tells the number. -/
theorem payloadOf_inj {m : Nat} {d : List UInt8} (hm : m < 18446744073709551616)
    (hn : n < 18446744073709551616) (h : payloadOf m c = payloadOf n d) : m = n := by
  have htake (k : Nat) (e : List UInt8) :
      (payloadOf k e).take nonceLen = BigEndian.ofNat nonceLen k :=
    List.take_left' (BigEndian.length_ofNat _ _)
  have hwide {k : Nat} (hk : k < 18446744073709551616) : k < Nat.pow 256 nonceLen :=
    Nat.lt_trans hk (by decide)
  have hnum : BigEndian.toNat ((payloadOf m c).take nonceLen) =
      BigEndian.toNat ((payloadOf n d).take nonceLen) :=
    congrArg (fun p => BigEndian.toNat (p.take nonceLen)) h
  rw [htake, htake, BigEndian.toNat_ofNat (hwide hm), BigEndian.toNat_ofNat (hwide hn)] at hnum
  exact hnum

/-- The log of blocks that were sealed with the nonces from `n` on. -/
def logFrom : Nat → List (List UInt8) → SealLog
  | _, [] => []
  | n, c :: cs => (payloadOf n c, c) :: logFrom (n + 1) cs

theorem logFrom_append (n : Nat) (as bs : List (List UInt8)) :
    logFrom n (as ++ bs) = logFrom n as ++ logFrom (n + as.length) bs := by
  induction as generalizing n with
  | nil => rfl
  | cons a as ih =>
    rw [List.cons_append, logFrom, ih, logFrom, List.length_cons, List.cons_append]
    rw [Nat.add_assoc n 1, Nat.add_comm 1]

/-- Nothing in the log has a later nonce. -/
theorem find_logFrom_none {k : Nat} (hk : n + cs.length ≤ k) (hlt : k < 18446744073709551616) :
    (logFrom n cs).find (payloadOf k c) = none := by
  induction cs generalizing n with
  | nil => rfl
  | cons d ds ih =>
    rw [List.length_cons] at hk
    have hne : payloadOf n d ≠ payloadOf k c := fun h =>
      absurd (payloadOf_inj (by omega) hlt h) (by omega)
    unfold SealLog.find logFrom
    rw [List.find?_cons_of_neg (by simpa using hne)]
    exact ih (by omega)

/-- Each block of the log has a payload that opens to it. -/
theorem open_logFrom (hc : c ∈ cs) (hlt : n + cs.length < 18446744073709551616) :
    ∃ k, (logFrom n cs).open (payloadOf k c) = some c := by
  suffices h : ∃ k, n ≤ k ∧ k < n + cs.length ∧ (logFrom n cs).find (payloadOf k c) = some c by
    obtain ⟨k, -, -, hk⟩ := h
    refine ⟨k, ?_⟩
    unfold SealLog.open
    rw [length_payloadOf, if_neg (by omega), hk]
  induction cs generalizing n with
  | nil => exact (List.not_mem_nil hc).elim
  | cons d ds ih =>
    rw [List.length_cons] at hlt ⊢
    unfold SealLog.find logFrom
    rcases List.mem_cons.mp hc with rfl | hc
    · refine ⟨n, Nat.le_refl n, by omega, ?_⟩
      rw [List.find?_cons_of_pos (by simp)]
      rfl
    · obtain ⟨k, hle, hk, hfind⟩ := @ih (n + 1) hc (by omega)
      have hne : payloadOf n d ≠ payloadOf k c := fun h =>
        absurd (payloadOf_inj (by omega) (by omega) h) (by omega)
      refine ⟨k, by omega, by omega, ?_⟩
      rw [List.find?_cons_of_neg (by simpa using hne)]
      exact hfind

/-- A plaintext that is short enough is sealed with a new nonce. -/
theorem seal_logFrom {k : Nat} (hk : cs.length ≤ k) (hlt : k < 18446744073709551616)
    (hc : c.length ≤ maxPlaintext) :
    (logFrom 0 cs).seal (payloadOf k c) c = some (logFrom 0 cs ++ [(payloadOf k c, c)]) := by
  unfold SealLog.seal
  rw [if_neg (Nat.not_lt.mpr hc),
    if_pos ⟨length_payloadOf k c, find_logFrom_none (by omega) hlt⟩]

/-! ## The attack -/

/-- The sender sends all its blocks. -/
theorem run_sends {front rest : List (List UInt8)} (hchunks : sent.chunks = front ++ rest)
    (hcount : sent.chunks.length < 18446744073709551616) (hlog : l.log = logFrom 0 front)
    (hsender : l.sender = .sending rest) :
    ∃ es, l.run receipts sent es =
      some { l with log := logFrom 0 sent.chunks, sender := .awaiting } := by
  induction rest generalizing l front with
  | nil =>
    rw [List.append_nil] at hchunks
    refine ⟨[.sendEof], run_one ?_⟩
    obtain ⟨log, sender, toSender, receiver, toReceiver⟩ := l
    obtain rfl : log = logFrom 0 front := hlog
    obtain rfl : sender = .sending [] := hsender
    rw [hchunks]
    rfl
  | cons c rest ih =>
    obtain ⟨log, sender, toSender, receiver, toReceiver⟩ := l
    obtain rfl : log = logFrom 0 front := hlog
    obtain rfl : sender = .sending (c :: rest) := hsender
    have hshort : c.length ≤ maxPlaintext :=
      sent.short c (hchunks ▸ List.mem_append_right _ List.mem_cons_self)
    have hfront : front.length < 18446744073709551616 := by
      rw [hchunks, List.length_append] at hcount
      omega
    have hnext : logFrom 0 front ++ [(payloadOf front.length c, c)] = logFrom 0 (front ++ [c]) := by
      rw [logFrom_append, Nat.zero_add]
      rfl
    have hseal := seal_logFrom (Nat.le_refl _) hfront hshort
    rw [hnext] at hseal
    obtain ⟨es, hes⟩ := @ih
      { log := logFrom 0 (front ++ [c]), sender := .sending rest, toSender, receiver, toReceiver }
      (front ++ [c]) (by rw [hchunks, List.append_assoc]; rfl) rfl rfl
    refine ⟨.sendChunk (payloadOf front.length c) :: es, ?_⟩
    show ((SealLog.seal _ _ _).map _).bind _ = _
    rw [hseal]
    exact hes

/-- The receiver reads the frames that are put before it, up to the end. -/
theorem run_receives {total : Int} {file : List UInt8} {frames : SealLog}
    (hopen : ∀ e ∈ frames, l.log.open e.1 = some e.2)
    (hlen : ∀ e ∈ frames, 0 < e.1.length ∧ e.1.length ≤ maxFrame) (htotal : total = file.length)
    (hsized : Sized sent (file ++ (frames.map Prod.snd).flatten))
    (hreceiver : l.receiver = .receiving total file)
    (hstream : l.toReceiver = (frames.map fun e => writeFrame e.1).flatten ++ writeEof) :
    ∃ es, l.run receipts sent es = some { l with
      receiver := .received (file ++ (frames.map Prod.snd).flatten), toReceiver := [] } := by
  induction frames generalizing l total file with
  | nil =>
    obtain ⟨log, sender, toSender, receiver, toReceiver⟩ := l
    obtain rfl : receiver = .receiving total file := hreceiver
    rw [List.map_nil, List.flatten_nil, List.nil_append] at hstream
    obtain rfl : toReceiver = writeEof := hstream
    refine ⟨[.receive], run_one ?_⟩
    have hread : readFrame writeEof = .eof [] := readFrame_writeEof []
    have hend : endOfFrames sent.size total file = .received file := by
      rw [List.map_nil, List.flatten_nil, List.append_nil] at hsized
      exact if_neg fun h => h.2 (htotal.trans (hsized h.1))
    unfold Link.step
    dsimp only
    rw [hread, List.map_nil, List.flatten_nil, List.append_nil, receiveFrame, hend]
    rfl
  | cons e frames ih =>
    obtain ⟨log, sender, toSender, receiver, toReceiver⟩ := l
    obtain ⟨p, c⟩ := e
    obtain rfl : receiver = .receiving total file := hreceiver
    obtain rfl : toReceiver =
      writeFrame p ++ (frames.map fun e => writeFrame e.1).flatten ++ writeEof := hstream
    obtain ⟨⟨hpos, hmax⟩, hlens⟩ := List.forall_mem_cons.mp hlen
    obtain ⟨hpc, hopens⟩ := List.forall_mem_cons.mp hopen
    have hread : readFrame (writeFrame p ++ (frames.map fun e => writeFrame e.1).flatten ++
        writeEof) = .payload p ((frames.map fun e => writeFrame e.1).flatten ++ writeEof) := by
      rw [List.append_assoc]
      exact readFrame_writeFrame hpos hmax _
    have htake : takeChunk sent.size total file c =
        .receiving (total + (c.length : Int)) (file ++ c) := by
      unfold takeChunk
      by_cases hc : c = []
      · rw [if_pos hc, hc, List.append_nil]
        exact congrArg (Receiver.receiving · file) (Int.add_zero total).symm
      · rw [if_neg hc]
        refine if_neg fun h => ?_
        have hsize : ((file ++ (c ++ (frames.map Prod.snd).flatten)).length : Int) = sent.size :=
          hsized h.1
        rw [List.length_append, List.length_append] at hsize
        omega
    have hframe : receiveFrame sent.size log total file
        (.payload p ((frames.map fun e => writeFrame e.1).flatten ++ writeEof)) =
          some (.receiving (total + (c.length : Int)) (file ++ c),
            (frames.map fun e => writeFrame e.1).flatten ++ writeEof) := by
      rw [receiveFrame, hpc]
      show some (takeChunk sent.size total file c, _) = _
      rw [htake]
    rw [List.map_cons, List.flatten_cons, ← List.append_assoc] at hsized
    obtain ⟨es, hes⟩ := @ih
      { log, sender, toSender, receiver := .receiving (total + (c.length : Int)) (file ++ c)
        toReceiver := (frames.map fun e => writeFrame e.1).flatten ++ writeEof }
      (total + (c.length : Int)) (file ++ c) hopens hlens
      (by rw [htotal, List.length_append]; exact (Int.natCast_add _ _).symm) hsized rfl rfl
    refine ⟨.receive :: es, ?_⟩
    show ((receiveFrame sent.size log total file (readFrame _)).map _).bind _ = _
    rw [hread, hframe, List.map_cons, List.flatten_cons, ← List.append_assoc]
    exact hes

/-- Blocks of the sender have frames that open to them. -/
theorem exists_frames {blocks : List (List UInt8)} (h : ∀ c ∈ blocks, c ∈ cs)
    (hlt : cs.length < 18446744073709551616) (hshort : ∀ c ∈ cs, c.length ≤ maxPlaintext) :
    ∃ frames : SealLog, frames.map Prod.snd = blocks ∧
      (∀ e ∈ frames, (logFrom 0 cs).open e.1 = some e.2) ∧
      ∀ e ∈ frames, 0 < e.1.length ∧ e.1.length ≤ maxFrame := by
  induction blocks with
  | nil => exact ⟨[], rfl, fun _ he => (List.not_mem_nil he).elim,
      fun _ he => (List.not_mem_nil he).elim⟩
  | cons c blocks ih =>
    obtain ⟨hc, hblocks⟩ := List.forall_mem_cons.mp h
    obtain ⟨frames, hmap, hopen, hlen⟩ := ih hblocks
    obtain ⟨k, hk⟩ := open_logFrom hc (by rw [Nat.zero_add]; exact hlt)
    have hle := hshort c hc
    refine ⟨(payloadOf k c, c) :: frames, by rw [List.map_cons, hmap],
      List.forall_mem_cons.mpr ⟨hk, hopen⟩, List.forall_mem_cons.mpr ⟨?_, hlen⟩⟩
    rw [length_payloadOf]
    unfold maxFrame nonceLen tagLen
    omega

/-- **Whatever can be put together can be had**, and the sender is done with it too. -/
theorem every_assembly (receipts : Receipts) (hreceipt : receipts.success.length ≤ maxPlaintext)
    (sent : Sent) {file : List UInt8} (hfile : Assembled sent file) (hsized : Sized sent file) :
    ∃ es l, (Link.start sent).run receipts sent es = some l ∧ l.receiver = .done file ∧
      l.sender = .done := by
  obtain ⟨blocks, hblocks, rfl⟩ := hfile
  have hcount : sent.chunks.length < 9223372036854775808 := by
    refine Nat.lt_of_le_of_lt ?_ sent.bounded
    have hne := sent.nonempty
    generalize sent.chunks = cs at hne
    induction cs with
    | nil => exact Nat.zero_le _
    | cons c cs ih =>
      obtain ⟨hc, hcs⟩ := List.forall_mem_cons.mp hne
      have hpos := List.length_pos_iff.mpr hc
      have hle := ih hcs
      rw [List.length_cons, List.flatten_cons, List.length_append]
      omega
  obtain ⟨frames, hmap, hopen, hlen⟩ := exists_frames hblocks (by omega) sent.short
  -- The sender sends everything, and the adversary puts the frames that it wants in front.
  obtain ⟨es, hes⟩ := @run_sends receipts sent (Link.start sent) [] sent.chunks rfl (by omega) rfl
    rfl
  obtain ⟨fs, hfs⟩ := @run_receives receipts sent
    { Link.start sent with
      log := logFrom 0 sent.chunks
      sender := .awaiting
      toReceiver := (frames.map fun e => writeFrame e.1).flatten ++ writeEof }
    0 [] frames hopen hlen rfl (by rw [hmap, List.nil_append]; exact hsized) rfl rfl
  rw [hmap, List.nil_append] at hfs
  -- The receiver stores the file and sends its receipt, which the sender reads.
  have hseal := seal_logFrom (Nat.le_refl sent.chunks.length) (by omega) hreceipt
  generalize hp : payloadOf sent.chunks.length receipts.success = p at hseal
  have hplen : p.length = nonceLen + receipts.success.length + tagLen := by
    rw [← hp, length_payloadOf]
  have hread : readFrame (writeFrame p) = .payload p [] := by
    have hframe := @readFrame_writeFrame p
      (by rw [hplen]; unfold nonceLen tagLen; omega)
      (by rw [hplen]; unfold maxFrame nonceLen tagLen; omega) []
    rw [List.append_nil] at hframe
    exact hframe
  have hreceiptRead : readReceipt receipts (logFrom 0 sent.chunks ++ [(p, receipts.success)])
      (.payload p []) = some (.done, []) := by
    have hok : ((SealLog.open (logFrom 0 sent.chunks ++ [(p, receipts.success)]) p).bind
        receipts.read) = some true := by
      rw [SealLog.open_sealed hseal]
      exact receipts.read_success
    unfold readReceipt
    dsimp only
    rw [hok]
  refine ⟨es ++ .toReceiver ((frames.map fun e => writeFrame e.1).flatten ++ writeEof) ::
    (fs ++ [.store, .sendSuccess p, .toSender (writeFrame p), .readReceipt]),
    { log := logFrom 0 sent.chunks ++ [(p, receipts.success)], sender := .done, toSender := []
      receiver := .done blocks.flatten, toReceiver := [] }, ?_, rfl, rfl⟩
  rw [run_append hes]
  refine (run_append hfs).trans ?_
  show ((SealLog.seal _ _ _).map _).bind _ = _
  rw [hseal]
  show ((readReceipt receipts _ (readFrame (writeFrame p))).map _).bind _ = _
  rw [hread, hreceiptRead]
  rfl

/-! ## Three attacks -/

/-- A file of one block of full length and one more byte. -/
def twoBlocks : Sent where
  chunks := [List.replicate maxPlaintext 1, [2]]
  size := 262145
  nonempty c hc := by
    rcases List.mem_cons.mp hc with rfl | hc
    · exact fun h => absurd (congrArg List.length h) (by rw [List.length_replicate]; decide)
    · rw [List.mem_singleton.mp hc]
      exact List.cons_ne_nil _ _
  short c hc := by
    rcases List.mem_cons.mp hc with rfl | hc
    · exact Nat.le_of_eq List.length_replicate
    · rw [List.mem_singleton.mp hc]
      decide
  bounded := by
    rw [List.flatten_cons, List.length_append, List.length_replicate]
    decide

/-- A file that reads as a receipt. -/
def ownReceipt : Sent where
  chunks := [successJson]
  size := 25
  nonempty := by decide
  short := by decide
  bounded := by decide

/-- A file of one byte whose size is unknown. -/
def unknownSize : Sent where
  chunks := [[1]]
  size := -1
  nonempty := by decide
  short := by decide
  bounded := by decide

end XferRust.Lan
