import XferRust.Lib.StepRun
import XferRust.Bt.MseHandshake

/-! # The encrypted stream

`EncryptedStream` puts the two ciphers of the handshake around a stream.  A byte of the keystream
is used up when a text is enciphered, and not when it is sent: what the stream below does not take
waits as ciphertext, and the caller offers its text again from there.  What the scan of the
handshake has read too far is deciphered before anything else is read.

Two such streams at the ends of one connection are run against each other, over any cuts, any
partial writes and any such leftover (`Pair`); each byte is enciphered, sent, read and deciphered
once, at its position (`Carried`).
-/
namespace XferRust.Bt

open StepRun

/-- `EncryptedStream`, without the stream below. -/
structure EncryptedStream where
  sendCipher : Rc4
  recvCipher : Rc4
  /-- The ciphertext that is not sent yet. -/
  writeBuf : List UInt8
  /-- The ciphertext that the handshake has read too far. -/
  readPending : List UInt8

namespace EncryptedStream

/-- `new`. -/
def new (sendCipher recvCipher : Rc4) : EncryptedStream :=
  { sendCipher, recvCipher, writeBuf := [], readPending := [] }

/-- `with_pending_read`. -/
def withPendingRead (s : EncryptedStream) (bytes : List UInt8) : EncryptedStream :=
  { s with readPending := bytes }

/-- The start of `poll_write`: a new text is enciphered when no ciphertext waits. -/
def fillWriteBuf (s : EncryptedStream) (buf : List UInt8) : EncryptedStream :=
  if s.writeBuf.isEmpty then
    let r := s.sendCipher.process buf
    { s with writeBuf := r.1, sendCipher := r.2 }
  else s

/-- `poll_write`: the stream below takes `accepted` bytes of the ciphertext, or is not ready. -/
def pollWrite (s : EncryptedStream) (buf : List UInt8) (accepted : Option Nat) :
    EncryptedStream × Option Nat :=
  let s := s.fillWriteBuf buf
  match accepted with
  | some n => ({ s with writeBuf := s.writeBuf.drop n }, some n)
  | none => (s, none)

/-- `write_encrypted`, and what it writes. -/
def writeEncrypted (s : EncryptedStream) (data : List UInt8) : EncryptedStream × List UInt8 :=
  let r := s.sendCipher.process data
  ({ s with sendCipher := r.2 }, r.1)

/-- At most `len` bytes of what was read too far. -/
def takePending (s : EncryptedStream) (len : Nat) : EncryptedStream × List UInt8 :=
  let r := s.recvCipher.process (s.readPending.take len)
  ({ s with readPending := s.readPending.drop len, recvCipher := r.2 }, r.1)

/-- What has arrived is deciphered. -/
def decrypt (s : EncryptedStream) (arrived : List UInt8) : EncryptedStream × List UInt8 :=
  let r := s.recvCipher.process arrived
  ({ s with recvCipher := r.2 }, r.1)

/-- `poll_read` and `read_decrypted`, into a buffer of `len` bytes; `arrived` is what the stream
below gives, where it is asked. -/
def pollRead (s : EncryptedStream) (len : Nat) (arrived : List UInt8) :
    EncryptedStream × List UInt8 :=
  if s.readPending.isEmpty then s.decrypt arrived else s.takePending len

/-- `read_exact_decrypted`; `arrived` is what the stream below gives, as much as is missing. -/
def readExactDecrypted (s : EncryptedStream) (len : Nat) (arrived : List UInt8) :
    EncryptedStream × List UInt8 :=
  let r := if s.readPending.isEmpty then (s, []) else s.takePending len
  if r.2.length < len then
    let r' := r.1.decrypt arrived
    (r'.1, r.2 ++ r'.2)
  else r

end EncryptedStream

/-! ## Two ends -/

/-- One end of the connection: its ciphers, its stream behind the handshake, and its history. -/
structure EncEnd where
  sendCipher : Rc4
  recvCipher : Rc4
  stream : Option EncryptedStream
  /-- The text that was accepted. -/
  written : List UInt8
  /-- What the caller still has to write of the text that it offered last. -/
  owed : List UInt8
  /-- The bytes given to the stream below. -/
  sent : List UInt8
  /-- Those of them that the other end has not taken yet. -/
  wire : List UInt8
  /-- The text that was read. -/
  got : List UInt8

namespace EncEnd

def start (sendCipher recvCipher : Rc4) : EncEnd :=
  { sendCipher, recvCipher, stream := none, written := [], owed := [], sent := [], wire := []
    got := [] }

/-- The ciphertext that waits to be sent. -/
def waiting (x : EncEnd) : List UInt8 := (x.stream.map EncryptedStream.writeBuf).getD []

/-- The ciphertext that was read too far. -/
def leftover (x : EncEnd) : List UInt8 := (x.stream.map EncryptedStream.readPending).getD []

/-- Bytes go to the stream below. -/
def send (x : EncEnd) (bytes : List UInt8) : EncEnd :=
  { x with sent := x.sent ++ bytes, wire := x.wire ++ bytes }

end EncEnd

inductive EncAct
  /-- The handshake ends and has read `k` bytes too far. -/
  | opened (k : Nat)
  | pollWrite (buf : List UInt8) (accepted : Option Nat)
  | writeEncrypted (data : List UInt8)
  /-- `poll_read` or `read_decrypted`; `arrives` bytes are there. -/
  | read (len arrives : Nat)
  | readExact (len : Nat)

namespace EncAct

/-- What happens at an end `x` whose other end is `y`. -/
def act (x y : EncEnd) : EncAct → Option (EncEnd × EncEnd)
  | .opened k =>
    if x.stream.isNone then
      some ({ x with
          stream := some ((EncryptedStream.new x.sendCipher x.recvCipher).withPendingRead
            (y.wire.take k)) },
        { y with wire := y.wire.drop k })
    else none
  | .pollWrite buf accepted =>
    x.stream.bind fun s =>
      let offered := (s.fillWriteBuf buf).writeBuf
      if accepted.all (· ≤ offered.length) then
        let r := s.pollWrite buf accepted
        let n := r.2.getD 0
        some ({ x with
            stream := some r.1, written := x.written ++ buf.take n
            owed := buf.drop n }.send (offered.take n), y)
      else none
  | .writeEncrypted data =>
    x.stream.map fun s =>
      let r := s.writeEncrypted data
      ({ x with stream := some r.1, written := x.written ++ data }.send r.2, y)
  | .read len arrives =>
    x.stream.bind fun s =>
      let n := if s.readPending.isEmpty then arrives else 0
      if n ≤ min len y.wire.length then
        let r := s.pollRead len (y.wire.take n)
        some ({ x with stream := some r.1, got := x.got ++ r.2 },
          { y with wire := y.wire.drop n })
      else none
  | .readExact len =>
    x.stream.bind fun s =>
      let n := len - s.readPending.length
      if n ≤ y.wire.length then
        let r := s.readExactDecrypted len (y.wire.take n)
        some ({ x with stream := some r.1, got := x.got ++ r.2 },
          { y with wire := y.wire.drop n })
      else none

/-- A text begins with what is still to be written of the one before. -/
def Follows (x : EncEnd) : EncAct → Prop
  | .pollWrite buf _ => x.owed <+: buf
  | .writeEncrypted _ => x.owed = []
  | .opened _ | .read _ _ | .readExact _ => True

instance decidableFollows (x : EncEnd) : (e : EncAct) → Decidable (e.Follows x)
  | .pollWrite buf _ => inferInstanceAs (Decidable (x.owed <+: buf))
  | .writeEncrypted _ => inferInstanceAs (Decidable (x.owed = []))
  | .opened _ | .read _ _ | .readExact _ => instDecidableTrue

end EncAct

/-- The two ends. -/
structure Pair where
  a : EncEnd
  b : EncEnd

namespace Pair

/-- Behind the handshake `a` sends with `ra` and `b` with `rb`. -/
def start (ra rb : Rc4) : Pair := { a := .start ra rb, b := .start rb ra }

/-- Something happens at end `a`, or else at end `b`. -/
def step (p : Pair) : Bool × EncAct → Option Pair
  | (true, e) => (e.act p.a p.b).map fun r => { a := r.1, b := r.2 }
  | (false, e) => (e.act p.b p.a).map fun r => { b := r.1, a := r.2 }

/-- **The caller's part**, at the end where it happens. -/
def Continues (p : Pair) (e : Bool × EncAct) : Prop := e.2.Follows (if e.1 then p.a else p.b)

instance (p : Pair) (e : Bool × EncAct) : Decidable (p.Continues e) :=
  EncAct.decidableFollows _ e.2

end Pair

/-! ## What a call does to the keystream -/

namespace Rc4

/-- What comes first of a text comes first of its ciphertext. -/
theorem enc_take (r : Rc4) (data : List UInt8) (n : Nat) :
    (r.enc data).take n = r.enc (data.take n) := by
  have hlen : (r.enc (data.take n)).length = (data.take n).length := r.length_enc _
  conv => lhs; rw [← List.take_append_drop n data, enc_append]
  obtain h | h := Nat.le_total n data.length
  · rw [List.take_left' (by rw [hlen, List.length_take, Nat.min_eq_left h])]
  · rw [List.drop_eq_nil_of_le h, show (r.after (data.take n).length).enc [] = [] from rfl,
      List.append_nil]
    refine List.take_of_length_le ?_
    rw [hlen, List.length_take]
    exact Nat.min_le_left _ _

theorem enc_drop (r : Rc4) (data : List UInt8) {n : Nat} (h : n ≤ data.length) :
    (r.enc data).drop n = (r.after n).enc (data.drop n) := by
  have hlen : (r.enc (data.take n)).length = n := by
    rw [length_enc, List.length_take, Nat.min_eq_left h]
  conv => lhs; rw [← List.take_append_drop n data, enc_append]
  rw [List.drop_left' hlen, List.length_take, Nat.min_eq_left h]

end Rc4

namespace EncryptedStream

variable {s : EncryptedStream}

/-- What a read takes of `todo`, the ciphertext that was read too far and what follows it: its
first `m` bytes. -/
structure Reads (s s' : EncryptedStream) (todo rest out : List UInt8) (m : Nat) : Prop where
  bound : m ≤ todo.length
  out_eq : out = s.recvCipher.enc (todo.take m)
  rest_eq : rest = todo.drop m
  cipher : s'.recvCipher = s.recvCipher.after m

theorem reads_takePending (s : EncryptedStream) (len : Nat) (wire : List UInt8) :
    Reads s (s.takePending len).1 (s.readPending ++ wire) ((s.takePending len).1.readPending ++ wire)
      (s.takePending len).2 (min len s.readPending.length) := by
  have hle := Nat.min_le_right len s.readPending.length
  have htake : s.readPending.take (min len s.readPending.length) = s.readPending.take len := by
    rw [← List.take_take, List.take_length]
  refine ⟨?_, ?_, ?_, ?_⟩
  · rw [List.length_append]
    omega
  · rw [List.take_append_of_le_length hle, htake]
    rfl
  · rw [List.drop_append_of_le_length hle]
    show s.readPending.drop len ++ wire = _
    obtain h | h := Nat.le_total len s.readPending.length
    · rw [Nat.min_eq_left h]
    · rw [Nat.min_eq_right h, List.drop_length, List.drop_eq_nil_of_le h]
  · show (s.recvCipher.process (s.readPending.take len)).2 = _
    rw [Rc4.process_eq, List.length_take]

variable {wire : List UInt8} {n : Nat}

theorem reads_decrypt (h : s.readPending = []) (hn : n ≤ wire.length) :
    Reads s (s.decrypt (wire.take n)).1 (s.readPending ++ wire)
      ((s.decrypt (wire.take n)).1.readPending ++ wire.drop n) (s.decrypt (wire.take n)).2 n := by
  refine ⟨?_, ?_, ?_, ?_⟩
  · rw [h, List.nil_append]
    exact hn
  · rw [h]
    rfl
  · show s.readPending ++ wire.drop n = _
    rw [h]
    rfl
  · show (s.recvCipher.process (wire.take n)).2 = _
    rw [Rc4.process_eq, List.length_take, Nat.min_eq_left hn]

/-- One read behind another. -/
theorem Reads.andThen {s' s'' : EncryptedStream} {todo rest rest' out out' : List UInt8} {m : Nat}
    (h : Reads s s' todo rest out m) (h' : Reads s' s'' rest rest' out' n) :
    Reads s s'' todo rest' (out ++ out') (m + n) := by
  have hrest := h.rest_eq
  subst hrest
  have hbound := h'.bound
  rw [List.length_drop] at hbound
  have hm := h.bound
  refine ⟨by omega, ?_, ?_, ?_⟩
  · rw [h.out_eq, h'.out_eq, h.cipher, List.take_add, Rc4.enc_append, List.length_take,
      Nat.min_eq_left hm]
  · rw [h'.rest_eq, List.drop_drop]
  · rw [h'.cipher, h.cipher, Rc4.after_after]

theorem reads_pollRead (s : EncryptedStream) {len : Nat} (hn : n ≤ wire.length)
    (hpending : s.readPending ≠ [] → n = 0) :
    ∃ m, Reads s (s.pollRead len (wire.take n)).1 (s.readPending ++ wire)
      ((s.pollRead len (wire.take n)).1.readPending ++ wire.drop n)
      (s.pollRead len (wire.take n)).2 m := by
  unfold pollRead
  by_cases h : s.readPending = []
  · rw [if_pos (List.isEmpty_iff.mpr h)]
    exact ⟨n, reads_decrypt h hn⟩
  · rw [if_neg (mt List.isEmpty_iff.mp h), hpending h, List.drop_zero]
    exact ⟨_, reads_takePending s len wire⟩

theorem reads_readExactDecrypted (s : EncryptedStream) {len : Nat}
    (hn : len - s.readPending.length ≤ wire.length) :
    let r := s.readExactDecrypted len (wire.take (len - s.readPending.length))
    ∃ m, Reads s r.1 (s.readPending ++ wire)
      (r.1.readPending ++ wire.drop (len - s.readPending.length)) r.2 m := by
  unfold readExactDecrypted
  dsimp only
  by_cases h : s.readPending = []
  · rw [if_pos (List.isEmpty_iff.mpr h)]
    dsimp only
    split
    · exact ⟨_, by simpa only [List.nil_append] using reads_decrypt h hn⟩
    · next hlen =>
      have hzero : len = 0 := by
        rw [List.length_nil] at hlen
        omega
      subst hzero
      exact ⟨0, Nat.zero_le _, rfl, by rw [Nat.zero_sub, List.drop_zero, List.drop_zero], rfl⟩
  · rw [if_neg (mt List.isEmpty_iff.mp h)]
    have hfirst := reads_takePending s len wire
    have hlen : (s.takePending len).2.length = min len s.readPending.length := by
      show (s.recvCipher.enc (s.readPending.take len)).length = _
      rw [Rc4.length_enc, List.length_take]
    split
    · next hshort =>
      rw [hlen] at hshort
      have hnil : (s.takePending len).1.readPending = [] :=
        List.drop_eq_nil_of_le (by omega)
      exact ⟨_, hfirst.andThen (reads_decrypt hnil hn)⟩
    · next hfull =>
      rw [hlen] at hfull
      rw [show len - s.readPending.length = 0 by omega, List.drop_zero]
      exact ⟨_, hfirst⟩

end EncryptedStream

/-! ## Each byte once -/

/-- What end `x` has sent and what waits is its text, enciphered once and in order. -/
structure Enciphered (x : EncEnd) : Prop where
  sent : x.sent = x.sendCipher.enc x.written
  fits : x.waiting.length ≤ x.owed.length
  waits : x.waiting = (x.sendCipher.after x.written.length).enc (x.owed.take x.waiting.length)
  position : ∀ s ∈ x.stream,
    s.sendCipher = x.sendCipher.after (x.written.length + x.waiting.length)
  unopened : x.stream = none → x.written = [] ∧ x.owed = []

/-- What end `x` has sent is what end `y` has read, what it has read too far, and what is on its
way. -/
structure Deciphered (x y : EncEnd) : Prop where
  agreed : y.recvCipher = x.sendCipher
  taken : x.sent = x.sendCipher.enc y.got ++ (y.leftover ++ x.wire)
  position : ∀ s ∈ y.stream, s.recvCipher = x.sendCipher.after y.got.length
  unopened : y.stream = none → y.got = []

theorem enciphered_start (ra rb : Rc4) : Enciphered (.start ra rb) where
  sent := rfl
  fits := Nat.le_refl 0
  waits := rfl
  position := fun _ hs => by cases hs
  unopened := fun _ => ⟨rfl, rfl⟩

theorem deciphered_start (ra rb : Rc4) : Deciphered (.start ra rb) (.start rb ra) where
  agreed := rfl
  taken := rfl
  position := fun _ hs => by cases hs
  unopened := fun _ => rfl

variable {x x' y : EncEnd} {s s' : EncryptedStream}

/-- A call that sends nothing. -/
theorem Enciphered.of_eq (h : Enciphered x) (hcipher : x'.sendCipher = x.sendCipher)
    (hsent : x'.sent = x.sent) (hwritten : x'.written = x.written) (howed : x'.owed = x.owed)
    (hstream : ∀ s' ∈ x'.stream, ∃ s ∈ x.stream,
      s'.sendCipher = s.sendCipher ∧ s'.writeBuf = s.writeBuf)
    (hnone : x'.stream = none → x.stream = none) : Enciphered x' := by
  have hwaiting : x'.waiting = x.waiting := by
    unfold EncEnd.waiting
    cases hx : x'.stream with
    | none => rw [hnone hx]
    | some s' =>
      obtain ⟨s, hs, -, hbuf⟩ := hstream s' hx
      rw [show x.stream = some s from hs, Option.map_some, Option.map_some, hbuf]
  constructor
  · rw [hsent, hcipher, hwritten]
    exact h.sent
  · rw [hwaiting, howed]
    exact h.fits
  · rw [hwaiting, howed, hcipher, hwritten]
    exact h.waits
  · intro s' hs'
    obtain ⟨s, hs, hcip, -⟩ := hstream s' hs'
    rw [hcip, hwaiting, hcipher, hwritten]
    exact h.position s hs
  · intro hx
    rw [hwritten, howed]
    exact h.unopened (hnone hx)

/-- A call at the end that sends, which hands over `bytes`. -/
theorem Deciphered.send (h : Deciphered x y) {bytes : List UInt8}
    (hcipher : x'.sendCipher = x.sendCipher) (hsent : x'.sent = x.sent ++ bytes)
    (hwire : x'.wire = x.wire ++ bytes) : Deciphered x' y where
  agreed := h.agreed.trans hcipher.symm
  taken := by
    rw [hsent, hwire, hcipher, h.taken, List.append_assoc, List.append_assoc]
  position s hs := by
    rw [hcipher]
    exact h.position s hs
  unopened := h.unopened

/-- A call at the end that reads, which leaves what it has read as it is. -/
theorem Deciphered.of_eq {y' : EncEnd} (h : Deciphered x y) (hs : y.stream = some s)
    (hs' : y'.stream = some s') (hcipher : y'.recvCipher = y.recvCipher)
    (hrecv : s'.recvCipher = s.recvCipher) (hpending : s'.readPending = s.readPending)
    (hgot : y'.got = y.got) : Deciphered x y' where
  agreed := hcipher.trans h.agreed
  taken := by
    have hleft : y'.leftover = y.leftover := by
      unfold EncEnd.leftover
      rw [hs, hs', Option.map_some, Option.map_some, hpending]
    rw [hgot, hleft]
    exact h.taken
  position t ht := by
    obtain rfl : s' = t := Option.some.inj (hs'.symm.trans ht)
    rw [hrecv, hgot]
    exact h.position s hs
  unopened hn := by
    rw [hs'] at hn
    cases hn

/-- A read. -/
theorem Deciphered.read (h : Deciphered x y) (hs : y.stream = some s) {wire out : List UInt8}
    {m : Nat} (hreads : s.Reads s' (s.readPending ++ x.wire) (s'.readPending ++ wire) out m) :
    Deciphered { x with wire } { y with stream := some s', got := y.got ++ out } := by
  have hcipher := h.position s hs
  have hleft : y.leftover = s.readPending := by
    unfold EncEnd.leftover
    rw [hs]
    rfl
  have htaken := h.taken
  rw [hleft] at htaken
  have hout := hreads.out_eq
  have hlen : out.length = m := by
    rw [hout, Rc4.length_enc, List.length_take, Nat.min_eq_left hreads.bound]
  refine ⟨h.agreed, ?_, ?_, nofun⟩
  · show x.sent = x.sendCipher.enc (y.got ++ out) ++ (s'.readPending ++ wire)
    rw [htaken, hreads.rest_eq, Rc4.enc_append, ← hcipher, hout, Rc4.enc_enc, List.append_assoc,
      List.take_append_drop]
  · intro t ht
    obtain rfl : s' = t := Option.some.inj ht
    show s'.recvCipher = x.sendCipher.after (y.got ++ out).length
    rw [hreads.cipher, hcipher, Rc4.after_after, List.length_append, hlen]

/-- The end of the handshake, behind `k` bytes too many. -/
theorem Deciphered.opened (h : Deciphered x y) (hs : y.stream = none) (k : Nat) :
    Deciphered { x with wire := x.wire.drop k }
      { y with stream := some ((EncryptedStream.new y.sendCipher y.recvCipher).withPendingRead
          (x.wire.take k)) } := by
  have hgot := h.unopened hs
  have hleft : y.leftover = [] := by
    unfold EncEnd.leftover
    rw [hs]
    rfl
  have htaken := h.taken
  rw [hleft, List.nil_append] at htaken
  refine ⟨h.agreed, ?_, ?_, nofun⟩
  · show x.sent = x.sendCipher.enc y.got ++ (x.wire.take k ++ x.wire.drop k)
    rw [List.take_append_drop]
    exact htaken
  · intro t ht
    obtain rfl := Option.some.inj ht
    show y.recvCipher = x.sendCipher.after y.got.length
    rw [h.agreed, hgot]
    rfl

/-- The ciphertext that `poll_write` offers is that of the text, from where the text before it was
sent. -/
theorem Enciphered.fill (h : Enciphered x) (hs : x.stream = some s) {buf : List UInt8}
    (hbuf : x.owed <+: buf) :
    let L := (s.fillWriteBuf buf).writeBuf.length
    L ≤ buf.length ∧
      (s.fillWriteBuf buf).writeBuf = (x.sendCipher.after x.written.length).enc (buf.take L) ∧
      (s.fillWriteBuf buf).sendCipher = x.sendCipher.after (x.written.length + L) ∧
      (s.fillWriteBuf buf).recvCipher = s.recvCipher ∧
      (s.fillWriteBuf buf).readPending = s.readPending := by
  have hwaiting : x.waiting = s.writeBuf := by
    unfold EncEnd.waiting
    rw [hs]
    rfl
  have hfits := h.fits
  have hwaits := h.waits
  have hposition := h.position s hs
  rw [hwaiting] at hfits hwaits hposition
  unfold EncryptedStream.fillWriteBuf
  by_cases hnil : s.writeBuf = []
  · rw [if_pos (List.isEmpty_iff.mpr hnil)]
    rw [hnil, List.length_nil, Nat.add_zero] at hposition
    have hlen : (s.sendCipher.enc buf).length = buf.length := Rc4.length_enc _ _
    dsimp only
    refine ⟨Nat.le_of_eq hlen, ?_, ?_, rfl, rfl⟩
    · rw [hlen, List.take_length, hposition]
    · rw [hlen, Rc4.process_eq, hposition, Rc4.after_after]
  · rw [if_neg (mt List.isEmpty_iff.mp hnil)]
    obtain ⟨more, rfl⟩ := hbuf
    refine ⟨?_, ?_, hposition, rfl, rfl⟩
    · rw [List.length_append]
      omega
    · rw [List.take_append_of_le_length hfits]
      exact hwaits

/-- A partial write goes on where the text before it was sent. -/
theorem Enciphered.pollWrite (h : Enciphered x) (hs : x.stream = some s) {buf : List UInt8}
    (hbuf : x.owed <+: buf) {n : Nat} (hn : n ≤ (s.fillWriteBuf buf).writeBuf.length) :
    Enciphered ({ x with
      stream := some { s.fillWriteBuf buf with writeBuf := (s.fillWriteBuf buf).writeBuf.drop n }
      written := x.written ++ buf.take n
      owed := buf.drop n }.send ((s.fillWriteBuf buf).writeBuf.take n)) := by
  obtain ⟨hL, hfill, hcipher, -⟩ := h.fill hs hbuf
  generalize s.fillWriteBuf buf = s₁ at hn hL hfill hcipher ⊢
  have hnbuf : n ≤ buf.length := Nat.le_trans hn hL
  have hwritten : (x.written ++ buf.take n).length = x.written.length + n := by
    rw [List.length_append, List.length_take, Nat.min_eq_left hnbuf]
  have hwaiting : (s₁.writeBuf.drop n).length = s₁.writeBuf.length - n := List.length_drop
  have hbound : n ≤ (buf.take s₁.writeBuf.length).length := by
    rw [List.length_take, Nat.min_eq_left hL]
    exact hn
  constructor
  · show x.sent ++ s₁.writeBuf.take n = x.sendCipher.enc (x.written ++ buf.take n)
    rw [Rc4.enc_append, ← h.sent]
    conv => lhs; rw [hfill, Rc4.enc_take, List.take_take, Nat.min_eq_left hn]
  · show (s₁.writeBuf.drop n).length ≤ (buf.drop n).length
    rw [hwaiting, List.length_drop]
    omega
  · show s₁.writeBuf.drop n = (x.sendCipher.after (x.written ++ buf.take n).length).enc
      ((buf.drop n).take (s₁.writeBuf.drop n).length)
    rw [hwaiting, hwritten, ← List.drop_take, ← Rc4.after_after, ← Rc4.enc_drop _ _ hbound, ← hfill]
  · intro t ht
    obtain rfl := Option.some.inj ht
    show s₁.sendCipher = x.sendCipher.after ((x.written ++ buf.take n).length +
      (s₁.writeBuf.drop n).length)
    rw [hcipher, hwritten, hwaiting]
    congr 1
    omega
  · intro hnone
    cases hnone

/-- A whole write, when nothing is owed. -/
theorem Enciphered.writeEncrypted (h : Enciphered x) (hs : x.stream = some s) (howed : x.owed = [])
    (data : List UInt8) :
    Enciphered ({ x with
      stream := some (s.writeEncrypted data).1
      written := x.written ++ data }.send (s.writeEncrypted data).2) := by
  have hwaiting : x.waiting = s.writeBuf := by
    unfold EncEnd.waiting
    rw [hs]
    rfl
  have hfits := h.fits
  have hposition := h.position s hs
  rw [hwaiting, howed, List.length_nil] at hfits
  have hnil : s.writeBuf = [] := List.length_eq_zero_iff.mp (Nat.le_zero.mp hfits)
  rw [hwaiting, hnil, List.length_nil, Nat.add_zero] at hposition
  have hbuf : (s.writeEncrypted data).1.writeBuf = [] := hnil
  constructor
  · show x.sent ++ s.sendCipher.enc data = x.sendCipher.enc (x.written ++ data)
    rw [Rc4.enc_append, ← h.sent, hposition]
  · show (s.writeEncrypted data).1.writeBuf.length ≤ x.owed.length
    rw [hbuf]
    exact Nat.zero_le _
  · show (s.writeEncrypted data).1.writeBuf = (x.sendCipher.after (x.written ++ data).length).enc
      (x.owed.take (s.writeEncrypted data).1.writeBuf.length)
    rw [hbuf, howed]
    rfl
  · intro t ht
    obtain rfl := Option.some.inj ht
    show (s.sendCipher.process data).2 = x.sendCipher.after ((x.written ++ data).length +
      (s.writeEncrypted data).1.writeBuf.length)
    rw [hbuf, Rc4.process_eq, hposition, Rc4.after_after, List.length_append, List.length_nil,
      Nat.add_zero]
  · intro hnone
    cases hnone

/-- Both directions. -/
structure Flows (x y : EncEnd) : Prop where
  sends : Enciphered x
  answers : Enciphered y
  forth : Deciphered x y
  back : Deciphered y x

theorem Flows.symm (h : Flows x y) : Flows y x := ⟨h.answers, h.sends, h.back, h.forth⟩

/-- What is sent at `x` leaves the other direction alone. -/
theorem Flows.sent (h : Flows x y) (hsends : Enciphered x') (hs : x.stream = some s)
    (hs' : x'.stream = some s') (hrecv : s'.recvCipher = s.recvCipher)
    (hpending : s'.readPending = s.readPending) {bytes : List UInt8}
    (hcipher : x'.sendCipher = x.sendCipher) (hrecvCipher : x'.recvCipher = x.recvCipher)
    (hsent : x'.sent = x.sent ++ bytes) (hwire : x'.wire = x.wire ++ bytes)
    (hgot : x'.got = x.got) : Flows x' y where
  sends := hsends
  answers := h.answers
  forth := h.forth.send hcipher hsent hwire
  back := h.back.of_eq hs hs' hrecvCipher hrecv hpending hgot

/-- What is read at `x` leaves what it has sent alone. -/
theorem Flows.read (h : Flows x y) (hs : x.stream = some s) {wire out : List UInt8} {m : Nat}
    (hreads : s.Reads s' (s.readPending ++ y.wire) (s'.readPending ++ wire) out m)
    (hsend : s'.sendCipher = s.sendCipher) (hbuf : s'.writeBuf = s.writeBuf) :
    Flows { x with stream := some s', got := x.got ++ out } { y with wire } where
  sends := by
    refine h.sends.of_eq rfl rfl rfl rfl (fun t ht => ⟨s, hs, ?_⟩) nofun
    obtain rfl := Option.some.inj ht
    exact ⟨hsend, hbuf⟩
  answers := h.answers.of_eq rfl rfl rfl rfl (fun t ht => ⟨t, ht, rfl, rfl⟩) id
  forth := ⟨h.forth.agreed, h.forth.taken, h.forth.position, h.forth.unopened⟩
  back := h.back.read hs hreads

theorem Flows.opened (h : Flows x y) (hs : x.stream = none) (k : Nat) :
    Flows { x with
        stream := some ((EncryptedStream.new x.sendCipher x.recvCipher).withPendingRead
          (y.wire.take k)) }
      { y with wire := y.wire.drop k } where
  sends := by
    obtain ⟨hwritten, howed⟩ := h.sends.unopened hs
    refine ⟨h.sends.sent, Nat.zero_le _, rfl, fun t ht => ?_, nofun⟩
    obtain rfl := Option.some.inj ht
    show x.sendCipher = x.sendCipher.after (x.written.length + 0)
    rw [hwritten]
    rfl
  answers := h.answers.of_eq rfl rfl rfl rfl (fun t ht => ⟨t, ht, rfl, rfl⟩) id
  forth := by
    have hleft := h.forth
    exact ⟨hleft.agreed, hleft.taken, hleft.position, hleft.unopened⟩
  back := h.back.opened hs k

namespace EncryptedStream

theorem pollRead_sends (s : EncryptedStream) (len : Nat) (arrived : List UInt8) :
    (s.pollRead len arrived).1.sendCipher = s.sendCipher ∧
      (s.pollRead len arrived).1.writeBuf = s.writeBuf := by
  unfold pollRead
  split
  · exact ⟨rfl, rfl⟩
  · exact ⟨rfl, rfl⟩

theorem readExactDecrypted_sends (s : EncryptedStream) (len : Nat) (arrived : List UInt8) :
    (s.readExactDecrypted len arrived).1.sendCipher = s.sendCipher ∧
      (s.readExactDecrypted len arrived).1.writeBuf = s.writeBuf := by
  unfold readExactDecrypted
  dsimp only
  split
  · split
    · exact ⟨rfl, rfl⟩
    · exact ⟨rfl, rfl⟩
  · split
    · exact ⟨rfl, rfl⟩
    · exact ⟨rfl, rfl⟩

theorem pollWrite_eq (s : EncryptedStream) (buf : List UInt8) (accepted : Option Nat) :
    s.pollWrite buf accepted = ({ s.fillWriteBuf buf with
      writeBuf := (s.fillWriteBuf buf).writeBuf.drop (accepted.getD 0) }, accepted) := by
  cases accepted with
  | none => rfl
  | some n => rfl

end EncryptedStream

theorem Flows.act {y' : EncEnd} {e : EncAct} (h : Flows x y) (he : e.Follows x)
    (hact : e.act x y = some (x', y')) : Flows x' y' := by
  cases e with
  | opened k =>
    obtain ⟨hs, heq⟩ := Option.ite_none_right_eq_some.mp hact
    obtain ⟨rfl, rfl⟩ := Prod.mk.inj (Option.some.inj heq)
    exact h.opened (Option.isNone_iff_eq_none.mp hs) k
  | pollWrite buf accepted =>
    obtain ⟨s, hs, hact⟩ := Option.bind_eq_some_iff.mp hact
    obtain ⟨hfit, heq⟩ := Option.ite_none_right_eq_some.mp hact
    rw [EncryptedStream.pollWrite_eq] at heq
    obtain ⟨rfl, rfl⟩ := Prod.mk.inj (Option.some.inj heq)
    have hn : accepted.getD 0 ≤ (s.fillWriteBuf buf).writeBuf.length := by
      cases accepted with
      | none => exact Nat.zero_le _
      | some n => exact of_decide_eq_true hfit
    obtain ⟨-, -, -, hrecv, hpending⟩ := h.sends.fill hs he
    exact h.sent (h.sends.pollWrite hs he hn) hs rfl hrecv hpending rfl rfl rfl rfl rfl
  | writeEncrypted data =>
    obtain ⟨s, hs, heq⟩ := Option.map_eq_some_iff.mp hact
    obtain ⟨rfl, rfl⟩ := Prod.mk.inj heq
    exact h.sent (h.sends.writeEncrypted hs he data) hs rfl rfl rfl rfl rfl rfl rfl rfl
  | read len arrives =>
    obtain ⟨s, hs, hact⟩ := Option.bind_eq_some_iff.mp hact
    obtain ⟨hfit, heq⟩ := Option.ite_none_right_eq_some.mp hact
    obtain ⟨rfl, rfl⟩ := Prod.mk.inj (Option.some.inj heq)
    have hwire := Nat.le_trans hfit (Nat.min_le_right _ _)
    obtain ⟨m, hreads⟩ := s.reads_pollRead hwire fun hne =>
      if_neg (mt List.isEmpty_iff.mp hne)
    obtain ⟨hsend, hbuf⟩ := s.pollRead_sends len (y.wire.take _)
    exact h.read hs hreads hsend hbuf
  | readExact len =>
    obtain ⟨s, hs, hact⟩ := Option.bind_eq_some_iff.mp hact
    obtain ⟨hfit, heq⟩ := Option.ite_none_right_eq_some.mp hact
    obtain ⟨rfl, rfl⟩ := Prod.mk.inj (Option.some.inj heq)
    obtain ⟨m, hreads⟩ := s.reads_readExactDecrypted hfit
    obtain ⟨hsend, hbuf⟩ := s.readExactDecrypted_sends len (y.wire.take _)
    exact h.read hs hreads hsend hbuf

/-- **Each byte once**: what `x` has sent is its text, enciphered in order, and what waits is the
text that comes next; `y` has read the beginning of the text, and the rest is on its way. -/
structure Carried (x y : EncEnd) : Prop where
  produced : x.sent ++ x.waiting =
    x.sendCipher.enc (x.written ++ x.owed.take x.waiting.length)
  sent : x.sent = x.sendCipher.enc x.written
  taken : x.sent = x.sendCipher.enc y.got ++ (y.leftover ++ x.wire)
  same : x.written = y.got ++ (x.sendCipher.after y.got.length).enc (y.leftover ++ x.wire)

theorem Flows.carried (h : Flows x y) : Carried x y where
  produced := by
    rw [Rc4.enc_append, ← h.sends.sent]
    conv => lhs; rw [h.sends.waits]
  sent := h.sends.sent
  taken := h.forth.taken
  same := by
    have hsame := congrArg x.sendCipher.enc (h.sends.sent.symm.trans h.forth.taken)
    rw [Rc4.enc_enc, Rc4.enc_append, Rc4.enc_enc, Rc4.length_enc] at hsame
    exact hsame

namespace Pair

theorem flows_step {p p' : Pair} {e : Bool × EncAct} (h : Flows p.a p.b) (he : p.Continues e)
    (hs : p.step e = some p') : Flows p'.a p'.b := by
  obtain ⟨atA, e⟩ := e
  cases atA with
  | true =>
    obtain ⟨r, hact, rfl⟩ := Option.map_eq_some_iff.mp hs
    exact h.act he hact
  | false =>
    obtain ⟨r, hact, rfl⟩ := Option.map_eq_some_iff.mp hs
    exact (h.symm.act he hact).symm

theorem flows_of_run {ra rb : Rc4} {es : List (Bool × EncAct)} {p : Pair}
    (hrun : run step (start ra rb) es = some p) (h : Along step Continues (start ra rb) es) :
    Flows p.a p.b :=
  run_invariant (fun _ _ _ hp he hs => flows_step hp he hs)
    ⟨enciphered_start ra rb, enciphered_start rb ra, deciphered_start ra rb,
      deciphered_start rb ra⟩ h hrun

end Pair

/-! ## The scan, over any cuts -/

namespace Mse

open ByteProc Search

/-- No read ends so far in front of the end of the marker that the scan gives up: `done` bytes are
read, the stream goes on in these cuts, and the marker ends at `stop`. -/
def WithinLimit (marker : List UInt8) (stop done : Nat) (cuts : List (List UInt8)) : Prop :=
  ∀ n, done + (cuts.take n).flatten.length < stop →
    done + (cuts.take n).flatten.length < syncScanLimit + marker.length

theorem withinLimit_cons {marker c : List UInt8} {stop done : Nat} {cuts : List (List UInt8)} :
    WithinLimit marker stop done (c :: cuts) ↔
      (done < stop → done < syncScanLimit + marker.length) ∧
        WithinLimit marker stop (done + c.length) cuts := by
  have hnext : ∀ n, done + ((c :: cuts).take (n + 1)).flatten.length =
      done + c.length + (cuts.take n).flatten.length := by
    intro n
    rw [List.take_succ_cons, List.flatten_cons, List.length_append, Nat.add_assoc]
  constructor
  · intro h
    refine ⟨h 0, fun n hn => ?_⟩
    rw [← hnext n] at hn ⊢
    exact h (n + 1) hn
  · rintro ⟨hnow, hlater⟩ n
    cases n with
    | zero => exact hnow
    | succ n =>
      rw [hnext n]
      exact hlater n

/-- A marker that begins within the limit is never given up. -/
theorem withinLimit_of_near {marker : List UInt8} {start : Nat} (hstart : start ≤ syncScanLimit)
    (done : Nat) (cuts : List (List UInt8)) :
    WithinLimit marker (start + marker.length) done cuts := by
  intro n hn
  omega

variable {marker pre rest dropped buf : List UInt8} {cuts : List (List UInt8)}

/-- The marker is found where it first begins, once it is read. -/
theorem position_there (hfirst : FirstAt marker pre) (hne : marker ≠ []) {more : List UInt8}
    (hall : dropped ++ buf = pre ++ (marker ++ more)) (hdropped : dropped.length ≤ pre.length) :
    position marker buf = some (pre.length - dropped.length) ∧
      buf.drop (pre.length - dropped.length + marker.length) = more := by
  have hat : buf.drop (pre.length - dropped.length) = marker ++ more := by
    have hdrop := congrArg (List.drop pre.length) hall
    rw [List.drop_left, List.drop_append, List.drop_eq_nil_of_le hdropped,
      List.nil_append] at hdrop
    exact hdrop
  have hrest : buf.drop (pre.length - dropped.length + marker.length) = more := by
    rw [← List.drop_drop, hat, List.drop_left]
  refine ⟨?_, hrest⟩
  cases hpos : position marker buf with
  | none =>
    exact absurd (hat ▸ List.prefix_append marker more) (position_eq_none hne hpos _)
  | some pos =>
    obtain ⟨hthere, -, hbefore⟩ := position_eq_some hpos
    have hle : pos ≤ pre.length - dropped.length :=
      Nat.le_of_not_lt fun hlt => hbefore _ hlt (hat ▸ List.prefix_append marker more)
    have hge : pre.length ≤ dropped.length + pos := by
      refine Nat.le_of_not_lt fun hlt => hfirst _ hlt ?_
      refine prefix_drop_of_append (by rw [List.length_append]; omega)
        (?_ : marker <+: (pre ++ marker ++ more).drop (dropped.length + pos))
      rw [List.append_assoc, ← hall, List.drop_append, List.drop_eq_nil_of_le (Nat.le_add_right _ _),
        List.nil_append, Nat.add_sub_cancel_left]
      exact hthere
    congr 1
    omega

/-- Before the marker is read it is not found. -/
theorem position_ahead (hfirst : FirstAt marker pre) (hne : marker ≠ []) {todo : List UInt8}
    (hall : dropped ++ buf ++ todo = pre ++ (marker ++ rest))
    (hread : (dropped ++ buf).length < pre.length + marker.length) : position marker buf = none := by
  cases hpos : position marker buf with
  | none => rfl
  | some pos =>
    obtain ⟨hthere, hlt, -⟩ := position_eq_some hpos
    have hlen := hthere.length_le
    rw [List.length_drop] at hlen
    rw [List.length_append] at hread
    have hpast : ¬ dropped.length + pos < pre.length := by
      intro hlt
      refine hfirst _ hlt (prefix_drop_of_append (by rw [List.length_append]; omega)
        (?_ : marker <+: (pre ++ marker ++ rest).drop (dropped.length + pos)))
      rw [List.append_assoc, ← hall, List.append_assoc, List.drop_append,
        List.drop_eq_nil_of_le (Nat.le_add_right _ _), List.nil_append, Nat.add_sub_cancel_left]
      exact prefix_drop_append _ hthere hne
    omega

/-- **The scan over any cuts**: it finds the first marker and returns what was read behind it, unless
a read ends too far in front of the marker's end; then it gives up. -/
theorem scanSync_onCuts (hfirst : FirstAt marker pre) (hne : marker ≠ [])
    (hcuts : ∀ c ∈ cuts, c ≠ []) (hall : dropped ++ buf ++ cuts.flatten = pre ++ (marker ++ rest))
    (hdropped : dropped.length ≤ pre.length) (hscanned : dropped.length ≤ syncScanLimit) :
    (WithinLimit marker (pre.length + marker.length) (dropped ++ buf).length cuts →
      ∃ left cuts', (scanSync marker buf dropped.length).onCuts cuts = (.ok left, cuts') ∧
        left ++ cuts'.flatten = rest) ∧
    (¬ WithinLimit marker (pre.length + marker.length) (dropped ++ buf).length cuts →
      ((scanSync marker buf dropped.length).onCuts cuts).1 =
        .error (.invalidData "同步标记扫描超限")) := by
  have hpos : 0 < marker.length := List.length_pos_iff.mpr hne
  induction cuts generalizing dropped buf with
  | nil =>
    rw [List.flatten_nil, List.append_nil] at hall
    obtain ⟨hthere, hrest⟩ := position_there hfirst hne hall hdropped
    constructor
    · intro _
      refine ⟨rest, [], ?_, List.append_nil rest⟩
      unfold scanSync
      rw [hthere]
      dsimp only
      rw [hrest]
      rfl
    · intro hfar
      refine absurd (fun n hn => ?_) hfar
      rw [hall, List.length_append, List.length_append] at hn
      omega
  | cons c cuts ih =>
    rw [withinLimit_cons]
    by_cases hread : pre.length + marker.length ≤ (dropped ++ buf).length
    · -- the marker is read
      have hfront : pre ++ marker <+: dropped ++ buf := by
        have hwhole : pre ++ marker <+: pre ++ (marker ++ rest) := ⟨rest, List.append_assoc ..⟩
        exact List.prefix_of_prefix_length_le hwhole (hall ▸ List.prefix_append _ _)
          (by rw [List.length_append]; exact hread)
      obtain ⟨more, hmore⟩ := hfront
      rw [List.append_assoc] at hmore
      obtain ⟨hthere, hrest⟩ := position_there hfirst hne hmore.symm hdropped
      constructor
      · intro _
        refine ⟨more, c :: cuts, ?_, ?_⟩
        · unfold scanSync
          rw [hthere]
          dsimp only
          rw [hrest]
          rfl
        · rw [← hmore, List.append_assoc, List.append_assoc] at hall
          exact List.append_cancel_left (List.append_cancel_left hall)
      · intro hfar
        refine absurd ⟨fun hlt => absurd hlt (by omega), fun n hn => ?_⟩ hfar
        omega
    · have hnone := position_ahead hfirst hne hall (Nat.lt_of_not_le hread)
      rw [List.length_append] at hread
      unfold scanSync
      rw [hnone]
      dsimp only
      by_cases hover : syncScanLimit < dropped.length + (buf.length - (marker.length - 1))
      · -- too much is given up
        rw [if_pos hover]
        constructor
        · intro hnear
          have hnow := hnear.1 (by rw [List.length_append]; omega)
          rw [List.length_append] at hnow
          omega
        · intro _
          rfl
      · rw [if_neg hover]
        have hc : c ≠ [] := hcuts c List.mem_cons_self
        rw [onCuts, if_neg hc]
        have hgone : (dropped ++ buf.take (buf.length - (marker.length - 1))).length =
            dropped.length + (buf.length - (marker.length - 1)) := by
          rw [List.length_append, List.length_take, Nat.min_eq_left (Nat.sub_le _ _)]
        have hsplit : dropped ++ buf.take (buf.length - (marker.length - 1)) ++
            (buf.drop (buf.length - (marker.length - 1)) ++ c) = dropped ++ buf ++ c := by
          simp only [List.append_assoc]
          rw [← List.append_assoc (buf.take _), List.take_append_drop]
        have hall' : dropped ++ buf.take (buf.length - (marker.length - 1)) ++
            (buf.drop (buf.length - (marker.length - 1)) ++ c) ++ cuts.flatten =
              pre ++ (marker ++ rest) := by
          rw [hsplit, ← hall, List.flatten_cons, List.append_assoc _ c]
        have hnext := ih (fun d hd => hcuts d (List.mem_cons_of_mem c hd)) hall'
          (by rw [hgone]; omega) (by rw [hgone]; omega)
        rw [hgone, hsplit,
          show (dropped ++ buf ++ c).length = (dropped ++ buf).length + c.length from
            List.length_append] at hnext
        have hnow : (dropped ++ buf).length < pre.length + marker.length →
            (dropped ++ buf).length < syncScanLimit + marker.length := by
          rw [List.length_append]
          omega
        exact ⟨fun h => hnext.1 h.2, fun h => hnext.2 fun hlater => h ⟨hnow, hlater⟩⟩

/-- **A marker that comes late is not found**: behind 700 bytes that are read one by one. -/
theorem gives_up_late : FirstAt [(1 : UInt8)] (List.replicate 700 0) ∧
    ((scanSync [1] [] 0).onCuts (List.replicate 700 [0] ++ [[1]])).1 =
      .error (.invalidData "同步标记扫描超限") := by
  have hfirst : FirstAt [1] (List.replicate 700 (0 : UInt8)) := by
    intro k hk hp
    rw [List.drop_append_of_le_length (Nat.le_of_lt hk), List.drop_eq_getElem_cons hk,
      List.getElem_replicate] at hp
    exact absurd (List.cons_prefix_cons.mp hp).1 (by decide)
  have hall : [] ++ [] ++ (List.replicate 700 [(0 : UInt8)] ++ [[1]]).flatten =
      List.replicate 700 0 ++ ([1] ++ []) := by decide +kernel
  have hcuts : ∀ c ∈ List.replicate 700 [(0 : UInt8)] ++ [[1]], c ≠ [] := by decide +kernel
  have hfar : ¬ WithinLimit [1] ((List.replicate 700 (0 : UInt8)).length + [(1 : UInt8)].length)
      ([] ++ [] : List UInt8).length (List.replicate 700 [0] ++ [[1]]) :=
    fun h => absurd (h 600 (by decide +kernel)) (by decide +kernel)
  generalize List.replicate 700 [(0 : UInt8)] ++ [[1]] = cuts at hall hcuts hfar ⊢
  generalize List.replicate 700 (0 : UInt8) = pre at hfirst hall hfar ⊢
  exact ⟨hfirst, (scanSync_onCuts hfirst (List.cons_ne_nil _ _) hcuts hall (Nat.zero_le _)
    (Nat.zero_le _)).2 hfar⟩

end Mse

/-! ## Both -/

/-- **Transparency**: in every run in which the callers go on where they were, each byte is carried
once, in both directions; and over any cuts the scan returns what follows the first marker, if no
read ends too far in front of its end. -/
theorem transparent_of_run (ra rb : Rc4) (es : List (Bool × EncAct)) (p : Pair)
    (hrun : run Pair.step (Pair.start ra rb) es = some p)
    (hcont : Along Pair.step Pair.Continues (Pair.start ra rb) es)
    (marker pre rest : List UInt8) (cuts : List (List UInt8)) (hne : marker ≠ [])
    (hfirst : Search.FirstAt marker pre) (hcuts : ∀ c ∈ cuts, c ≠ [])
    (hall : cuts.flatten = pre ++ (marker ++ rest)) :
    (Carried p.a p.b ∧ Carried p.b p.a) ∧
      (Mse.WithinLimit marker (pre.length + marker.length) 0 cuts →
        ∃ left cuts', (Mse.scanSync marker [] 0).onCuts cuts = (.ok left, cuts') ∧
          left ++ cuts'.flatten = rest) ∧
      (¬ Mse.WithinLimit marker (pre.length + marker.length) 0 cuts →
        ((Mse.scanSync marker [] 0).onCuts cuts).1 =
          .error (.invalidData "同步标记扫描超限")) ∧
      (pre.length ≤ Mse.syncScanLimit →
        Mse.WithinLimit marker (pre.length + marker.length) 0 cuts) := by
  have hflows := Pair.flows_of_run hrun hcont
  obtain ⟨hfound, hover⟩ := @Mse.scanSync_onCuts marker pre rest [] [] cuts hfirst hne hcuts hall
    (Nat.zero_le _) (Nat.zero_le _)
  exact ⟨⟨hflows.carried, hflows.symm.carried⟩, hfound, hover,
    fun hnear => Mse.withinLimit_of_near hnear 0 cuts⟩

/-- A cipher whose table is not mixed. -/
def unmixed : Rc4 := ⟨Vector.ofFn fun i => UInt8.ofNat i, 0, 0⟩

/-- A text in three parts, the second one not taken at first; the other end has read two bytes too
far, and answers. -/
def exchange : List (Bool × EncAct) :=
  [(true, .opened 0), (true, .pollWrite [1, 2, 3] (some 2)), (true, .pollWrite [3, 4] none),
    (true, .pollWrite [3, 4] (some 1)), (true, .pollWrite [4] (some 1)), (false, .opened 2),
    (false, .read 1 0), (false, .readExact 2), (false, .read 8 1), (false, .writeEncrypted [9]),
    (true, .read 8 1)]

theorem exchange_transparent : ∃ p, run Pair.step (Pair.start unmixed unmixed) exchange = some p ∧
    (p.b.got = [1, 2, 3, 4] ∧ p.a.got = [9]) ∧ (Carried p.a p.b ∧ Carried p.b p.a) ∧
    ∃ left cuts', (Mse.scanSync [1] [] 0).onCuts [[0, 1], [5]] = (.ok left, cuts') ∧
      left ++ cuts'.flatten = [5] := by
  have hrun : ((run Pair.step (Pair.start unmixed unmixed) exchange).any fun p =>
      decide (p.b.got = [1, 2, 3, 4] ∧ p.a.got = [9])) = true := by
    decide +kernel
  obtain ⟨p, hp, hgot⟩ := (Option.any_eq_true _ _).mp hrun
  obtain ⟨hcarried, hfound, -, hnear⟩ := transparent_of_run unmixed unmixed exchange p hp
    (by decide +kernel) [1] [0] [5] [[0, 1], [5]] (List.cons_ne_nil _ _) (by decide) (by decide) rfl
  exact ⟨p, hp, of_decide_eq_true hgot, hcarried, hfound (hnear (by decide))⟩

end XferRust.Bt
