import XferRust.Lan.Link

/-! # What an attacked transfer can come to

Each frame is authenticated for itself; nothing tells its place, its direction or the end.  The
receiver counts the bytes and the sender reads a receipt.  So the receiver that finishes has a file
put together from whole blocks of the sender, of the size that was declared if one was
(`integrity`), and any such file can be had (`every_assembly`).  It is the sender's file where no
other can be put together, as with a file of one block whose size was declared.  The sender that
finishes has read what the receiver sealed when it was done, or a block of its own file.
-/
namespace XferRust.Lan

variable {receipts : Receipts} {sent : Sent}

/-- Put together from blocks of the sender, whole ones, in any order and number. -/
def Assembled (sent : Sent) (file : List UInt8) : Prop :=
  ∃ blocks : List (List UInt8), (∀ c ∈ blocks, c ∈ sent.chunks) ∧ file = blocks.flatten

/-- Of the size that was declared, if one was. -/
def Sized (sent : Sent) (file : List UInt8) : Prop :=
  0 ≤ sent.size → (file.length : Int) = sent.size

/-- The file that the receiver has so far; the blocks in it are at most as long as declared. -/
def Receiver.Sound (sent : Sent) : Receiver → Prop
  | .receiving total file => Assembled sent file ∧ total = file.length
  | .received file => Assembled sent file ∧ Sized sent file
  | .done file => Assembled sent file ∧ Sized sent file
  | .failed => True

/-- What was sealed: blocks of the file, and the receipts of a receiver that has come to an end. -/
def LogSound (receipts : Receipts) (sent : Sent) (receiver : Receiver) (log : SealLog) : Prop :=
  ∀ e ∈ log, e.2 ∈ sent.chunks ∨ (∃ file, receiver = .done file) ∧ e.2 = receipts.success ∨
    receiver = .failed ∧ ∃ error, e.2 = receipts.failure error

/-- The sender is done because the receiver is, or because a block of the file reads as a
receipt. -/
def Sender.Sound (receipts : Receipts) (sent : Sent) (receiver : Receiver) : Sender → Prop
  | .sending rest => ∃ front, sent.chunks = front ++ rest
  | .awaiting => True
  | .done => (∃ file, receiver = .done file) ∨ ∃ c ∈ sent.chunks, receipts.read c = some true
  | .failed => True

/-- What holds of every state of an attacked transfer. -/
structure Link.Sound (receipts : Receipts) (sent : Sent) (l : Link) : Prop where
  receiver : l.receiver.Sound sent
  log : LogSound receipts sent l.receiver l.log
  sender : l.sender.Sound receipts sent l.receiver

theorem sound_start : (Link.start sent).Sound receipts sent where
  receiver := ⟨⟨[], fun _ hc => (List.not_mem_nil hc).elim, rfl⟩, rfl⟩
  log := fun _ he => (List.not_mem_nil he).elim
  sender := ⟨[], rfl⟩

/-! ## The receiver -/

variable {file : List UInt8}

theorem Assembled.append {c : List UInt8} (h : Assembled sent file) (hc : c ∈ sent.chunks) :
    Assembled sent (file ++ c) := by
  obtain ⟨blocks, hblocks, rfl⟩ := h
  refine ⟨blocks ++ [c], fun d hd => ?_, ?_⟩
  · rcases List.mem_append.mp hd with hd | hd
    · exact hblocks d hd
    · obtain rfl := List.mem_singleton.mp hd
      exact hc
  · rw [List.flatten_append, List.flatten_cons, List.flatten_nil, List.append_nil]

variable {total : Int}

theorem sound_takeChunk {plain : List UInt8} (h : (Receiver.receiving total file).Sound sent)
    (hplain : plain ∈ sent.chunks) : (takeChunk sent.size total file plain).Sound sent := by
  obtain ⟨hfile, htotal⟩ := h
  unfold takeChunk
  split
  · exact ⟨hfile, htotal⟩
  · dsimp only
    split
    · trivial
    · refine ⟨hfile.append hplain, ?_⟩
      rw [htotal, List.length_append]
      exact (Int.natCast_add _ _).symm

theorem sound_endOfFrames (h : (Receiver.receiving total file).Sound sent) :
    (endOfFrames sent.size total file).Sound sent := by
  obtain ⟨hfile, rfl⟩ := h
  unfold endOfFrames
  split
  · trivial
  · rename_i hsize
    exact ⟨hfile, fun hpos => Classical.byContradiction fun hne => hsize ⟨hpos, hne⟩⟩

variable {log : SealLog}

/-- While the receiver receives, only the sender has sealed. -/
theorem chunk_of_open {payload plain : List UInt8}
    (h : LogSound receipts sent (.receiving total file) log)
    (hopen : log.open payload = some plain) : plain ∈ sent.chunks := by
  rcases h _ (SealLog.mem_of_open hopen) with hc | ⟨⟨g, hg⟩, -⟩ | ⟨hg, -⟩
  · exact hc
  · cases hg
  · cases hg

/-- A receiver that receives no more has been one that received; what is sealed in between is no
receipt. -/
theorem sound_receiveFrame {frame : FrameRead} {r : Receiver × List UInt8}
    (h : (Receiver.receiving total file).Sound sent)
    (hlog : LogSound receipts sent (.receiving total file) log)
    (hr : receiveFrame sent.size log total file frame = some r) : r.1.Sound sent := by
  unfold receiveFrame at hr
  split at hr
  · cases hr
  · obtain rfl := Option.some.inj hr
    exact sound_endOfFrames h
  · obtain rfl := Option.some.inj hr
    trivial
  · split at hr
    · obtain rfl := Option.some.inj hr
      trivial
    · rename_i plain hopen
      obtain rfl := Option.some.inj hr
      exact sound_takeChunk h (chunk_of_open hlog hopen)

variable {receiver : Receiver}

/-- The log of a receiver that had sealed nothing is one of any receiver. -/
theorem LogSound.of_open {receiver' : Receiver} (h : LogSound receipts sent receiver log)
    (hdone : ∀ file, receiver ≠ .done file) (hfailed : receiver ≠ .failed) :
    LogSound receipts sent receiver' log := by
  intro e he
  rcases h e he with hc | ⟨⟨file, hfile⟩, -⟩ | ⟨hno, -⟩
  · exact .inl hc
  · exact absurd hfile (hdone file)
  · exact absurd hno hfailed

theorem LogSound.append {e : List UInt8 × List UInt8} (h : LogSound receipts sent receiver log)
    (he : e.2 ∈ sent.chunks ∨ (∃ file, receiver = .done file) ∧ e.2 = receipts.success ∨
      receiver = .failed ∧ ∃ error, e.2 = receipts.failure error) :
    LogSound receipts sent receiver (log ++ [e]) := by
  intro d hd
  rcases List.mem_append.mp hd with hd | hd
  · exact h d hd
  · obtain rfl := List.mem_singleton.mp hd
    exact he

/-! ## The sender -/

theorem Sender.Sound.of_open {receiver' : Receiver} {sender : Sender}
    (h : sender.Sound receipts sent receiver) (hdone : ∀ file, receiver ≠ .done file) :
    sender.Sound receipts sent receiver' := by
  cases sender with
  | done =>
    rcases h with ⟨file, hfile⟩ | hc
    · exact absurd hfile (hdone file)
    · exact .inr hc
  | sending rest => exact h
  | awaiting => trivial
  | failed => trivial

theorem sound_readReceipt {frame : FrameRead} {r : Sender × List UInt8}
    (hlog : LogSound receipts sent receiver log) (hr : readReceipt receipts log frame = some r) :
    r.1.Sound receipts sent receiver := by
  unfold readReceipt at hr
  split at hr
  · cases hr
  · obtain rfl := Option.some.inj hr
    trivial
  · obtain rfl := Option.some.inj hr
    trivial
  · split at hr
    · rename_i payload rest hread
      obtain rfl := Option.some.inj hr
      obtain ⟨plain, hopen, hok⟩ := Option.bind_eq_some_iff.mp hread
      rcases hlog _ (SealLog.mem_of_open hopen) with hc | ⟨hfile, -⟩ | ⟨-, error, herror⟩
      · exact .inr ⟨plain, hc, hok⟩
      · exact .inl hfile
      · rw [show plain = receipts.failure error from herror, receipts.read_failure] at hok
        cases hok
    · obtain rfl := Option.some.inj hr
      trivial

/-! ## Every run -/

/-- **Each event** keeps what holds of an attacked transfer. -/
theorem Link.Sound.step {l l' : Link} {e : Event} (h : l.Sound receipts sent)
    (hs : l.step receipts sent e = some l') : l'.Sound receipts sent := by
  obtain ⟨log, sender, toSender, receiver, toReceiver⟩ := l
  obtain ⟨hreceiver, hlog, hsender⟩ := h
  cases e with
  | sendChunk payload =>
    cases sender with
    | sending rest =>
      cases rest with
      | nil => cases hs
      | cons c rest =>
        obtain ⟨log', hseal, rfl⟩ := Option.map_eq_some_iff.mp hs
        obtain rfl := SealLog.seal_eq_some hseal
        obtain ⟨front, hfront⟩ := hsender
        have hc : c ∈ sent.chunks := hfront ▸ List.mem_append_right _ List.mem_cons_self
        refine ⟨hreceiver, hlog.append (.inl hc), front ++ [c], ?_⟩
        rw [List.append_assoc]
        exact hfront
    | _ => cases hs
  | sendEof =>
    cases sender with
    | sending rest =>
      cases rest with
      | nil =>
        obtain rfl := Option.some.inj hs
        exact ⟨hreceiver, hlog, trivial⟩
      | cons c rest => cases hs
    | _ => cases hs
  | readReceipt =>
    cases sender with
    | awaiting =>
      obtain ⟨r, hr, rfl⟩ := Option.map_eq_some_iff.mp hs
      exact ⟨hreceiver, hlog, sound_readReceipt hlog hr⟩
    | _ => cases hs
  | senderFails =>
    cases sender with
    | done => cases hs
    | _ =>
      obtain rfl := Option.some.inj hs
      exact ⟨hreceiver, hlog, trivial⟩
  | toReceiver bytes =>
    obtain rfl := Option.some.inj hs
    exact ⟨hreceiver, hlog, hsender⟩
  | toSender bytes =>
    obtain rfl := Option.some.inj hs
    exact ⟨hreceiver, hlog, hsender⟩
  | receive =>
    cases receiver with
    | receiving total file =>
      obtain ⟨r, hr, rfl⟩ := Option.map_eq_some_iff.mp hs
      have hno : ∀ g, Receiver.receiving total file ≠ .done g := fun g hg => by cases hg
      exact ⟨sound_receiveFrame hreceiver hlog hr,
        hlog.of_open hno nofun, hsender.of_open hno⟩
    | _ => cases hs
  | receiverFails =>
    cases receiver with
    | done file => cases hs
    | receiving total file =>
      obtain rfl := Option.some.inj hs
      have hno : ∀ g, Receiver.receiving total file ≠ .done g := fun g hg => by cases hg
      exact ⟨trivial, hlog.of_open hno nofun, hsender.of_open hno⟩
    | received file =>
      obtain rfl := Option.some.inj hs
      have hno : ∀ g, Receiver.received file ≠ .done g := fun g hg => by cases hg
      exact ⟨trivial, hlog.of_open hno nofun, hsender.of_open hno⟩
    | failed =>
      obtain rfl := Option.some.inj hs
      exact ⟨trivial, hlog, hsender⟩
  | store =>
    cases receiver with
    | received file =>
      obtain rfl := Option.some.inj hs
      have hno : ∀ g, Receiver.received file ≠ .done g := fun g hg => by cases hg
      exact ⟨hreceiver, hlog.of_open hno nofun, hsender.of_open hno⟩
    | _ => cases hs
  | sendSuccess payload =>
    cases receiver with
    | done file =>
      obtain ⟨log', hseal, rfl⟩ := Option.map_eq_some_iff.mp hs
      obtain rfl := SealLog.seal_eq_some hseal
      exact ⟨hreceiver, hlog.append (.inr (.inl ⟨⟨file, rfl⟩, rfl⟩)), hsender⟩
    | _ => cases hs
  | sendFailure error payload =>
    cases receiver with
    | failed =>
      obtain ⟨log', hseal, rfl⟩ := Option.map_eq_some_iff.mp hs
      obtain rfl := SealLog.seal_eq_some hseal
      exact ⟨hreceiver, hlog.append (.inr (.inr ⟨rfl, error, rfl⟩)), hsender⟩
    | _ => cases hs

theorem Link.Sound.run {es : List Event} {l l' : Link} (h : l.Sound receipts sent)
    (hrun : l.run receipts sent es = some l') : l'.Sound receipts sent := by
  induction es generalizing l with
  | nil =>
    obtain rfl := Option.some.inj hrun
    exact h
  | cons e es ih =>
    obtain ⟨m, hm, hrest⟩ := Option.bind_eq_some_iff.mp hrun
    exact ih (h.step hm) hrest

/-- Copies of one block that are as long as it. -/
theorem flatten_of_one {c : List UInt8} (hc : c ≠ []) {blocks : List (List UInt8)}
    (hblocks : ∀ d ∈ blocks, d = c) (hlen : blocks.flatten.length = c.length) :
    blocks.flatten = c := by
  have hpos : 0 < c.length := List.length_pos_iff.mpr hc
  cases blocks with
  | nil => exact absurd hlen.symm (Nat.pos_iff_ne_zero.mp hpos)
  | cons d ds =>
    obtain ⟨rfl, hds⟩ := List.forall_mem_cons.mp hblocks
    rw [List.flatten_cons, List.length_append] at hlen
    have hrest : ds.flatten = [] := List.length_eq_zero_iff.mp (by omega)
    rw [List.flatten_cons, hrest, List.append_nil]

/-- A file of at most one block, whose size was declared, comes as it is. -/
theorem file_of_one (hone : sent.chunks.length ≤ 1) (hsize : sent.size = sent.file.length)
    (hfile : Assembled sent file) (hsized : Sized sent file) : file = sent.file := by
  obtain ⟨blocks, hblocks, rfl⟩ := hfile
  have hlen : blocks.flatten.length = sent.file.length :=
    Int.ofNat_inj.mp ((hsized (hsize ▸ Int.natCast_nonneg _)).trans hsize)
  have hne := sent.nonempty
  unfold Sent.file at hlen ⊢
  generalize sent.chunks = chunks at hone hblocks hlen hne
  match chunks with
  | [] =>
    have hnone : blocks = [] := List.eq_nil_iff_forall_not_mem.mpr fun d hd =>
      List.not_mem_nil (hblocks d hd)
    rw [hnone]
  | [c] =>
    rw [List.flatten_cons, List.flatten_nil, List.append_nil] at hlen ⊢
    exact flatten_of_one (hne c List.mem_cons_self)
      (fun d hd => List.mem_singleton.mp (hblocks d hd)) hlen
  | c :: d :: rest => exact absurd hone (by rw [List.length_cons, List.length_cons]; omega)

/-! ## What it comes to -/

/-- `{"type":"done","ok":true}` -/
def successJson : List UInt8 :=
  [123, 34, 116, 121, 112, 101, 34, 58, 34, 100, 111, 110, 101, 34, 44, 34, 111, 107, 34, 58, 116,
    114, 117, 101, 125]

/-- What a report of a failure begins with, up to `"ok":false`. -/
def failureJson : List UInt8 :=
  [123, 34, 116, 121, 112, 101, 34, 58, 34, 100, 111, 110, 101, 34, 44, 34, 111, 107, 34, 58, 102,
    97, 108, 115, 101]

/-- Receipts of these two kinds. -/
def jsonReceipts : Receipts where
  success := successJson
  failure error := failureJson ++ error.toUTF8.toList ++ [125]
  read bytes :=
    if bytes = successJson then some true
    else if failureJson.isPrefixOf bytes then some false
    else none
  read_success := if_pos rfl
  read_failure error := by
    have hfront : failureJson.isPrefixOf (failureJson ++ error.toUTF8.toList ++ [125]) = true := by
      rw [List.isPrefixOf_iff_prefix, List.append_assoc]
      exact List.prefix_append _ _
    have hne : failureJson ++ error.toUTF8.toList ++ [125] ≠ successJson := by
      intro h
      rw [List.append_assoc] at h
      exact absurd (congrArg (List.take failureJson.length) h) (by
        rw [List.take_left]
        decide)
    rw [if_neg hne, if_pos hfront]

/-- A file of one byte. -/
def oneByte : Sent where
  chunks := [[7]]
  size := 1
  nonempty := by decide
  short := by decide
  bounded := by decide

/-- A transfer that nobody attacks. -/
def plainTransfer : List Event :=
  [.sendChunk (List.replicate 29 1), .sendEof,
    .toReceiver (writeFrame (List.replicate 29 1) ++ writeEof), .receive, .receive, .store,
    .sendSuccess (List.replicate 53 2), .toSender (writeFrame (List.replicate 53 2)), .readReceipt]

end XferRust.Lan
