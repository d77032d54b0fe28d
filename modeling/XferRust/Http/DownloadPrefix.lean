import Mathlib.Data.List.Infix
import XferRust.Http.Download

/-! # The file of a download

However often a download asks again, its file is a front of the resource, and complete when the
download ends well with a known length (`Download.right_of_run`).  Two things must be so for that.
A 206 must start at the byte that was asked for: its header is not looked at but for the length, and
the bytes are written where the download stands.  And nothing may be asked for behind the last byte:
the answer to that is a 416, for which a download is given up for good, so a connection that fails
when everything is there loses the task (`Download.misplaced_or_refused`).
-/
namespace XferRust

open StepRun

/-- Errors that no later attempt can mend, those of the local file and a cancellation aside. -/
def Split.HttpError.isPermanent : Split.HttpError → Bool
  | .io _ => false
  | .cancelled => false
  | e => !e.isRetryable

namespace Http

open Split (HttpError)

/-! ## Numbers in headers -/

theorem parseU64_toDigits (n : Nat) :
    Playlist.parseU64 (Nat.toDigits 10 n) =
      if n < Playlist.wordSize then some n else none := by
  have hdigit : ∀ c ∈ Nat.toDigits 10 n, c.isDigit = true := fun c hc =>
    Nat.isDigit_of_mem_toDigits (by decide) (by decide) hc
  have hplus : (Nat.toDigits 10 n).head? ≠ some '+' := by
    intro h
    have := hdigit '+' (List.mem_of_mem_head? h)
    revert this
    decide
  have hvalue : (Nat.toDigits 10 n).foldl (fun n c => 10 * n + (c.toNat - 48)) 0 = n :=
    Nat.ofDigitChars_ten_toDigits
  rw [Playlist.parseU64, if_neg hplus]
  dsimp only
  rw [if_pos ⟨Nat.toDigits_ne_nil, List.all_eq_true.mpr hdigit⟩, hvalue]

theorem isDigit_bounds {c : Char} (h : c.isDigit = true) : 48 ≤ c.toNat ∧ c.toNat ≤ 57 := by
  obtain ⟨hlo, hhi⟩ := Bool.and_eq_true_iff.mp h
  exact ⟨UInt32.le_iff_toNat_le.mp (of_decide_eq_true hlo),
    UInt32.le_iff_toNat_le.mp (of_decide_eq_true hhi)⟩

theorem not_isWhitespace_of_isDigit {c : Char} (h : c.isDigit = true) :
    Playlist.isWhitespace c = false := by
  obtain ⟨hlo, hhi⟩ := isDigit_bounds h
  have hne (k : Nat) (hk : 57 < k) : decide (c.toNat = k) = false := decide_eq_false (by omega)
  have h1 : decide (c.toNat ≤ 13) = false := decide_eq_false (by omega)
  have h2 : decide (8192 ≤ c.toNat) = false := decide_eq_false (by omega)
  have h3 : decide (c.toNat = 32) = false := decide_eq_false (by omega)
  unfold Playlist.isWhitespace
  dsimp only
  rw [h1, h2, h3, hne 133 (by decide), hne 160 (by decide), hne 5760 (by decide),
    hne 8232 (by decide), hne 8233 (by decide), hne 8239 (by decide), hne 8287 (by decide),
    hne 12288 (by decide), Bool.and_false]
  rfl

theorem trim_eq_self {l : List Char} (h : ∀ c ∈ l, Playlist.isWhitespace c = false) :
    Playlist.trim l = l := by
  have hdrop (l : List Char) (h : ∀ c ∈ l, Playlist.isWhitespace c = false) :
      l.dropWhile Playlist.isWhitespace = l := by
    cases l with
    | nil => rfl
    | cons c l =>
      exact List.dropWhile_cons_of_neg (ne_true_of_eq_false (h c List.mem_cons_self))
  rw [Playlist.trim, Playlist.trimStart, hdrop l h,
    hdrop _ fun c hc => h c (List.mem_reverse.mp hc), List.reverse_reverse]

/-- The total that a header states is the one that is read, if any is. -/
theorem totalFromContentRange_eq (first last n : Nat) (total : Bool) :
    totalFromContentRange (contentRange first last (if total then some n else none)) = none ∨
    totalFromContentRange (contentRange first last (if total then some n else none)) = some n := by
  have hdigits (k : Nat) : '/' ∉ Nat.toDigits 10 k := fun h =>
    absurd (Nat.isDigit_of_mem_toDigits (by decide) (by decide) h) (by decide)
  have hfront : '/' ∉ "bytes ".toList ++ Nat.toDigits 10 first ++ '-' :: Nat.toDigits 10 last := by
    intro h
    obtain h | h := List.mem_append.mp h
    · obtain h | h := List.mem_append.mp h
      · revert h
        decide
      · exact hdigits first h
    · obtain h | h := List.mem_cons.mp h
      · revert h
        decide
      · exact hdigits last h
  have hread (tail : List Char) (htail : '/' ∉ tail) :
      totalFromContentRange ("bytes ".toList ++ Nat.toDigits 10 first ++
          '-' :: Nat.toDigits 10 last ++ '/' :: tail) =
        Playlist.parseU64 (Playlist.trim tail) := by
    rw [totalFromContentRange, List.splitOn_append_cons_self_of_not_mem hfront,
      List.splitOn_eq_singleton htail]
    rfl
  cases total with
  | false => exact .inl ((hread ['*'] (by decide)).trans (by decide))
  | true =>
    have htrim : Playlist.trim (Nat.toDigits 10 n) = Nat.toDigits 10 n := trim_eq_self fun c hc =>
      not_isWhitespace_of_isDigit (Nat.isDigit_of_mem_toDigits (by decide) (by decide) hc)
    have hval := (hread (Nat.toDigits 10 n) (hdigits n)).trans
      (by rw [htrim, parseU64_toDigits])
    by_cases hn : n < Playlist.wordSize
    · exact .inr (hval.trans (if_pos hn))
    · exact .inl (hval.trans (if_neg hn))

/-! ## The file -/

namespace Sink

variable {s : Sink} {n : Nat}

/-- What is in the buffer belongs behind what the file holds. -/
def Placed (s : Sink) : Prop := s.off = s.disk.length

theorem Placed.content_eq (h : s.Placed) : s.content = s.disk ++ s.buffer := by
  rw [content, h, ByteFile.writeAt_length]

theorem Placed.flush_disk (h : s.Placed) : (s.flush n).disk = s.disk ++ s.buffer.take n := by
  rw [flush, h]
  exact ByteFile.writeAt_length _ _

theorem Placed.flush (h : s.Placed) : (s.flush n).Placed := by
  rw [Placed, h.flush_disk, List.length_append]
  exact congrArg (· + (s.buffer.take n).length) h

/-- Flushing moves bytes, and loses none. -/
theorem Placed.flush_all (h : s.Placed) :
    (s.flush n).disk ++ (s.flush n).buffer = s.disk ++ s.buffer := by
  rw [h.flush_disk, List.append_assoc]
  exact congrArg (s.disk ++ ·) (List.take_append_drop n s.buffer)

theorem flush_of_nil (h : s.buffer = []) : s.flush n = s := by
  cases s with
  | mk mode disk off buffer =>
    obtain rfl : buffer = [] := h
    unfold flush
    dsimp only
    rw [List.take_nil, List.drop_nil, ByteFile.writeAt_nil]
    rfl

end Sink

/-! ## Downloads -/

namespace Download

variable {resource : List UInt8} {sink : Sink} {start : Nat} {d d' : Download} {e : Event}

/-- **The local part is right**: a new file is written from its start, or the file holds the front
of the resource up to there. -/
def Local (resource : List UInt8) (start : Nat) (sink : Sink) : Prop :=
  sink.buffer = [] ∧
    match sink.mode with
    | .fresh => start = 0
    | .resume off => off = start ∧ start ≤ resource.length ∧ sink.disk = resource.take start

/-- **What is asked for is there, and is what comes**: nothing is asked for behind the last byte,
and a range starts at the byte that was asked for. -/
def Honoured (resource : List UInt8) (d : Download) : Event → Prop
  | .begin => d.pos = 0 ∨ d.pos < resource.length
  | .ranged first _ _ _ => first = d.pos
  | _ => True

instance (resource : List UInt8) (d : Download) (e : Event) : Decidable (Honoured resource d e) := by
  cases e with
  | begin => exact inferInstanceAs (Decidable (_ ∨ _))
  | ranged first last total opens => exact inferInstanceAs (Decidable (_ = _))
  | _ => exact instDecidableTrue

/-- **What a download owes.** -/
structure Right (resource : List UInt8) (sink : Sink) (d : Download) : Prop where
  /-- Before the first answer the file is left alone. -/
  untouched : d.began = false → d.sink = sink
  /-- The file is a front of the resource, with the bytes in the buffer and without them. -/
  file : d.began = true → d.sink.disk <+: resource ∧ d.sink.content <+: resource
  /-- A good end with a known length is the whole resource. -/
  whole : ∀ done, d.phase = .ended (.ok done) → done.totalLen.isSome = true →
    d.sink.disk = resource
  /-- A download is given up for good only while bytes are missing. -/
  lasting : ∀ e, d.phase = .ended (.error e) → e.isPermanent = true →
    resource = [] ∨ d.pos < resource.length

/-- What holds in a phase. -/
def PhaseSound (resource : List UInt8) (d : Download) : Prop :=
  match d.phase with
  | .ready => True
  | .sent => d.pos = 0 ∨ d.pos < resource.length
  | .reading skip body => d.began = true ∧ skip ≤ d.pos ∧ body <+: resource.drop (d.pos - skip)
  | .ended (.ok done) => done.totalLen.isSome = true → d.sink.disk = resource
  | .ended (.error e) => e.isPermanent = true → resource = [] ∨ d.pos < resource.length

/-- What holds of the file, and of what is known of the resource. -/
structure FileSound (resource : List UInt8) (start : Nat) (sink : Sink) (d : Download) : Prop where
  total : d.totalLen = none ∨ d.totalLen = some resource.length
  pos_le : d.pos ≤ resource.length
  before : d.began = false → d.sink = sink ∧ d.pos = start
  placed : d.began = true → d.sink.Placed
  file : d.began = true → d.sink.disk ++ d.sink.buffer <+: resource

/-- A download that goes on has written up to its position. -/
def Level (resource : List UInt8) (d : Download) : Prop :=
  d.began = true → d.sink.disk ++ d.sink.buffer = resource.take d.pos

structure Sound (resource : List UInt8) (start : Nat) (sink : Sink) (d : Download) : Prop
    extends FileSound resource start sink d where
  level : (∀ r, d.phase ≠ .ended r) → Level resource d
  phase : PhaseSound resource d

theorem Sound.right (h : Sound resource start sink d) : Right resource sink d where
  untouched hb := (h.before hb).1
  file hb :=
    have hfile := h.file hb
    ⟨(List.prefix_append _ _).trans hfile, (h.placed hb).content_eq ▸ hfile⟩
  whole done hd := by
    have := h.phase
    rw [PhaseSound, hd] at this
    exact this
  lasting e hd := by
    have := h.phase
    rw [PhaseSound, hd] at this
    exact this

theorem FileSound.congr (h : FileSound resource start sink d) (hpos : d'.pos = d.pos)
    (hsink : d'.sink = d.sink) (hbegan : d'.began = d.began) (htotal : d'.totalLen = d.totalLen) :
    FileSound resource start sink d' :=
  ⟨htotal ▸ h.total, hpos ▸ h.pos_le, (by rw [hbegan, hsink, hpos]; exact h.before),
    (by rw [hbegan, hsink]; exact h.placed), (by rw [hbegan, hsink]; exact h.file)⟩

/-- An error that is no permanent one, or comes while bytes are missing. -/
theorem Sound.fail (h : FileSound resource start sink d) {e : HttpError}
    (he : e.isPermanent = true → resource = [] ∨ d.pos < resource.length) :
    Sound resource start sink (d.fail e) :=
  { h.congr rfl rfl rfl rfl with
    level := fun hr => absurd rfl (hr (.error e))
    phase := he }

theorem Sound.stallRetry (h : FileSound resource start sink d) (hl : Level resource d)
    {e : HttpError} (he : e.isPermanent = false) (max : Nat) :
    Sound resource start sink (d.stallRetry e max) := by
  unfold Download.stallRetry
  dsimp only
  split
  · have hcount : FileSound resource start sink { d with idleAttempts := d.idleAttempts + 1 } :=
      h.congr rfl rfl rfl rfl
    exact Sound.fail hcount fun hp => absurd (he.symm.trans hp) Bool.noConfusion
  · exact { h.congr rfl rfl rfl rfl with level := fun _ => hl, phase := trivial }

variable {body : List UInt8}

/-- **An answer opens the file at the right place.**  The body is the resource from its start, or
from the byte that was asked for. -/
theorem Sound.answer (h : Sound resource start sink d) (hd : d.phase = .sent)
    (hlocal : Local resource start sink) {isPartial opens : Bool} {total : Option Nat}
    (htotal : total = none ∨ total = some resource.length)
    (hbody : body <+: if isPartial then resource.drop d.pos else resource) :
    Sound resource start sink (d.answer isPartial total body opens) := by
  have hlevel := h.level fun r hr => by rw [hd] at hr; cases hr
  have htotal' : d.totalLen.or total = none ∨ d.totalLen.or total = some resource.length := by
    obtain hnone | hsome := h.total
    · rw [hnone]
      exact htotal
    · rw [hsome]
      exact .inr rfl
  have hskip (pos : Nat) (hb : body <+: if isPartial then resource.drop pos else resource) :
      (if isPartial then 0 else pos) ≤ pos ∧
        body <+: resource.drop (pos - if isPartial then 0 else pos) := by
    cases isPartial with
    | true => exact ⟨Nat.zero_le _, hb⟩
    | false => exact ⟨Nat.le_refl _, (Nat.sub_self pos).symm ▸ hb⟩
  unfold Download.answer
  dsimp only
  by_cases hbegan : d.began = true
  · rw [if_pos hbegan]
    exact
      { total := htotal', pos_le := h.pos_le, before := h.before, placed := h.placed, file := h.file
        level := fun _ => hlevel
        phase := ⟨hbegan, hskip d.pos hbody⟩ }
  · rw [if_neg hbegan]
    have hnot := eq_false_of_ne_true hbegan
    obtain ⟨hsink, hpos⟩ := h.before hnot
    cases opens with
    | false =>
      have hfile : FileSound resource start sink { d with
          totalLen := d.totalLen.or total
          restartedFromZero := decide (d.pos > 0) && !isPartial } :=
        ⟨htotal', h.pos_le, h.before, h.placed, h.file⟩
      exact Sound.fail hfile fun hp => absurd hp Bool.noConfusion
    | true =>
      rw [if_pos rfl]
      cases hrestart : decide (d.pos > 0) && !isPartial with
      | true =>
        rw [if_pos rfl]
        obtain rfl : isPartial = false := by
          cases isPartial with
          | true => rw [Bool.not_true, Bool.and_false] at hrestart; cases hrestart
          | false => rfl
        exact
          { total := htotal', pos_le := Nat.zero_le _
            before := fun hb => absurd hb Bool.noConfusion
            placed := fun _ => rfl, file := fun _ => List.nil_prefix
            level := fun _ _ => rfl
            phase := ⟨rfl, hskip 0 hbody⟩ }
      | false =>
        rw [if_neg Bool.false_ne_true]
        have hopen : (d.sink.begin false).Placed ∧
            (d.sink.begin false).disk ++ (d.sink.begin false).buffer = resource.take d.pos := by
          obtain ⟨hbuffer, hmode⟩ := hlocal
          unfold Sink.begin
          rw [if_neg Bool.false_ne_true, hsink, hpos]
          cases hm : sink.mode with
          | fresh =>
            rw [hm] at hmode
            rw [show start = 0 from hmode]
            exact ⟨rfl, rfl⟩
          | resume off =>
            rw [hm] at hmode
            obtain ⟨hoff, hle, hdisk⟩ := hmode
            refine ⟨?_, (List.append_nil _).trans hdisk⟩
            show off = sink.disk.length
            rw [hdisk, List.length_take, hoff, Nat.min_eq_left hle]
        exact
          { total := htotal', pos_le := h.pos_le
            before := fun hb => absurd hb Bool.noConfusion
            placed := fun _ => hopen.1
            file := fun _ => hopen.2 ▸ List.take_prefix _ _
            level := fun _ _ => hopen.2
            phase := ⟨rfl, hskip d.pos hbody⟩ }

variable {skip : Nat}

/-- The body behind a chunk. -/
theorem drop_prefix_of_body {n : Nat} (hbody : body <+: resource.drop (d.pos - skip)) :
    body.drop n <+: resource.drop (d.pos - skip + (body.take n).length) := by
  rw [List.length_take, ← List.drop_drop]
  by_cases hn : n ≤ body.length
  · rw [Nat.min_eq_left hn]
    exact hbody.drop n
  · rw [List.drop_eq_nil_of_le (Nat.le_of_not_le hn)]
    exact List.nil_prefix

/-- What is known while a body is read. -/
theorem Sound.reading (h : Sound resource start sink d) (hd : d.phase = .reading skip body) :
    d.began = true ∧ d.sink.disk ++ d.sink.buffer = resource.take d.pos ∧ skip ≤ d.pos ∧
      body <+: resource.drop (d.pos - skip) := by
  obtain ⟨hbegan, hskip, hbody⟩ : d.began = true ∧ skip ≤ d.pos ∧
      body <+: resource.drop (d.pos - skip) := by
    have := h.phase
    rwa [PhaseSound, hd] at this
  exact ⟨hbegan, h.level (fun r hr => by rw [hd] at hr; cases hr) hbegan, hskip, hbody⟩

/-- What is left of a chunk, behind the bytes that are dropped, comes next in the resource. -/
theorem Sound.next (h : Sound resource start sink d) (hd : d.phase = .reading skip body) {n : Nat}
    {data : List UInt8} (hdata : data = (body.take n).drop (min skip (body.take n).length)) :
    d.sink.disk ++ (d.sink.buffer ++ data) = resource.take (d.pos + data.length) ∧
      d.pos + data.length ≤ resource.length := by
  obtain ⟨-, hlevel, hskip, hbody⟩ := h.reading hd
  have hle := h.pos_le
  by_cases hlt : skip ≤ (body.take n).length
  · have hrest : data <+: resource.drop d.pos := by
      have hdrop := ((List.take_prefix n body).trans hbody).drop skip
      rwa [List.drop_drop, Nat.sub_add_cancel hskip, ← Nat.min_eq_left hlt, ← hdata] at hdrop
    constructor
    · rw [← List.append_assoc, hlevel, List.take_add, ← List.prefix_iff_eq_take.mp hrest]
    · have hlen := hrest.length_le
      rw [List.length_drop] at hlen
      omega
  · obtain rfl : data = [] := by
      rw [hdata, Nat.min_eq_right (by omega), List.drop_length]
    exact ⟨by rw [List.append_nil]; exact hlevel, hle⟩

/-- **A chunk continues the file.** -/
theorem Sound.chunk (h : Sound resource start sink d) (hd : d.phase = .reading skip body) (n : Nat) :
    Sound resource start sink (d.chunk skip body n) := by
  obtain ⟨hbegan, hlevel, hskip, hbody⟩ := h.reading hd
  obtain ⟨hnew, hpos⟩ := h.next hd (n := n) rfl
  have hbody' := drop_prefix_of_body (n := n) hbody
  unfold Download.chunk
  dsimp only
  by_cases hlen : min skip (body.take n).length = (body.take n).length
  · rw [if_pos hlen, hlen]
    have hle : skip - (body.take n).length ≤ d.pos := by omega
    refine { h.congr rfl rfl rfl rfl with
      level := fun _ _ => hlevel, phase := ⟨hbegan, hle, ?_⟩ }
    show body.drop n <+: resource.drop (d.pos - (skip - (body.take n).length))
    rw [show d.pos - (skip - (body.take n).length) =
      d.pos - skip + (body.take n).length by omega]
    exact hbody'
  · rw [if_neg hlen]
    refine
      { total := h.total, pos_le := hpos
        before := fun hb => absurd (hb.symm.trans hbegan) Bool.noConfusion
        placed := fun _ => h.placed hbegan
        file := fun _ => hnew ▸ List.take_prefix _ _
        level := fun _ _ => hnew
        phase := ⟨hbegan, by rw [Nat.min_eq_left (by omega), Nat.sub_self]; exact Nat.zero_le _,
          ?_⟩ }
    show body.drop n <+: resource.drop (d.pos + ((body.take n).drop _).length - (skip - _))
    rw [List.length_drop, Nat.min_eq_left (by omega), Nat.sub_self, Nat.sub_zero,
      show d.pos + ((body.take n).length - skip) = d.pos - skip + (body.take n).length by omega]
    exact hbody'

/-- Flushing changes nothing but what the file holds already. -/
theorem FileSound.flush (h : FileSound resource start sink d) (hbuffer : sink.buffer = [])
    (n : Nat) : FileSound resource start sink { d with sink := d.sink.flush n } where
  total := h.total
  pos_le := h.pos_le
  before hb := by
    obtain ⟨hsink, hpos⟩ := h.before hb
    exact ⟨(Sink.flush_of_nil (hsink ▸ hbuffer)).trans hsink, hpos⟩
  placed hb := (h.placed hb).flush
  file hb := (h.placed hb).flush_all ▸ h.file hb

theorem Sound.flush (h : Sound resource start sink d) (hbuffer : sink.buffer = []) (n : Nat) :
    Sound resource start sink { d with sink := d.sink.flush n } :=
  { h.toFileSound.flush hbuffer n with
    level := fun hr hb => (h.placed hb).flush_all.trans (h.level hr hb)
    phase := by
      have hphase := h.phase
      rw [PhaseSound] at hphase ⊢
      cases hd : d.phase with
      | ended r =>
        rw [hd] at hphase
        cases r with
        | ok done =>
          intro hknown
          have hdisk : d.sink.disk = resource := hphase hknown
          have hnil : d.sink.buffer = [] := by
            cases hb : d.began with
            | false => rw [(h.before hb).1, hbuffer]
            | true =>
              have hlen := (h.file hb).length_le
              rw [List.length_append, hdisk] at hlen
              exact List.length_eq_zero_iff.mp (by omega)
          exact (congrArg Sink.disk (Sink.flush_of_nil hnil)).trans hdisk
        | error e => exact hphase
      | _ =>
        rw [hd] at hphase
        exact hphase }

theorem Sound.chunkTorn (h : Sound resource start sink d) (hd : d.phase = .reading skip body)
    (hbuffer : sink.buffer = []) (n taken : Nat) :
    Sound resource start sink (d.chunkTorn skip body n taken) := by
  obtain ⟨hbegan, -, -, -⟩ := h.reading hd
  obtain ⟨hnew, -⟩ := h.next hd (n := n) rfl
  have hwrite : FileSound resource start sink { d with
      sink := d.sink.write ((body.take n).drop (min skip (body.take n).length)) } :=
    { total := h.total, pos_le := h.pos_le
      before := fun hb => absurd (hb.symm.trans hbegan) Bool.noConfusion
      placed := fun _ => h.placed hbegan
      file := fun _ => hnew ▸ List.take_prefix _ _ }
  exact Sound.fail (hwrite.flush hbuffer taken) fun hp => absurd hp Bool.noConfusion

/-- **A body that ends** is all of it, or asks for the rest. -/
theorem Sound.eof (h : Sound resource start sink d) (hd : d.phase = .reading skip body)
    (hbuffer : sink.buffer = []) (flushed : Bool) (n : Nat) :
    Sound resource start sink (d.eof flushed n) := by
  obtain ⟨hbegan, hlevel, -, -⟩ := h.reading hd
  unfold Download.eof
  by_cases hshort : d.totalLen.any (fun t => decide (d.pos < t)) = true
  · rw [if_pos hshort]
    exact Sound.stallRetry h.toFileSound (fun _ => hlevel) rfl _
  · rw [if_neg hshort]
    cases flushed with
    | false =>
      exact Sound.fail (h.toFileSound.flush hbuffer n) fun hp => absurd hp Bool.noConfusion
    | true =>
      rw [if_pos rfl]
      refine { (h.toFileSound.flush hbuffer d.sink.buffer.length).congr rfl rfl rfl rfl with
        level := fun hr => absurd rfl (hr _), phase := fun hknown => ?_ }
      -- the length is known, and nothing is missing
      have hpos : d.pos = resource.length := by
        obtain hnone | hsome := h.total
        · rw [hnone] at hknown
          cases hknown
        · rw [hsome] at hshort
          have hge : ¬ d.pos < resource.length := fun hlt => hshort (decide_eq_true hlt)
          exact Nat.le_antisymm h.pos_le (Nat.le_of_not_lt hge)
      show (d.sink.flush d.sink.buffer.length).disk = resource
      rw [(h.placed hbegan).flush_disk, List.take_length, hlevel, hpos, List.take_length]

theorem isPermanent_fromReqwest (e : ReqwestError) :
    (HttpError.fromReqwest e).isPermanent = false ∧ (HttpError.fromReqwest e).isRetryable = true := by
  cases e with
  | timeout => exact ⟨rfl, rfl⟩
  | connect msg => exact ⟨rfl, rfl⟩
  | other msg => exact ⟨rfl, rfl⟩

/-- **A step keeps the file in order**, where what is asked for is there and comes. -/
theorem Sound.step (hlocal : Local resource start sink) (h : Sound resource start sink d)
    (he : Honoured resource d e) (hs : Download.step resource d e = some d') :
    Sound resource start sink d' := by
  have hgoes {p : Phase} (hp : d.phase = p) (hne : ∀ r, p ≠ .ended r) : Level resource d :=
    h.level fun r hr => hne r (hp ▸ hr)
  unfold Download.step at hs
  split at hs
  · -- begin
    next hp =>
    obtain rfl := Option.some.inj hs
    exact { h.congr rfl rfl rfl rfl with
      level := fun _ => hgoes hp fun r hr => by cases hr
      phase := he }
  · obtain rfl := Option.some.inj hs
    exact Sound.fail h.toFileSound fun hp => absurd hp Bool.noConfusion
  · -- connectFailed
    next e hp =>
    obtain ⟨hperm, hretry⟩ := isPermanent_fromReqwest e
    dsimp only at hs
    rw [if_pos hretry] at hs
    obtain rfl := Option.some.inj hs
    exact Sound.stallRetry h.toFileSound (hgoes hp fun r hr => by cases hr) hperm _
  · next hp =>
    obtain rfl := Option.some.inj hs
    exact Sound.stallRetry h.toFileSound (hgoes hp fun r hr => by cases hr) rfl _
  · -- refused
    next status hp =>
    split at hs
    · cases hs
    · obtain rfl := Option.some.inj hs
      refine Sound.fail h.toFileSound fun _ => ?_
      have hsent : d.pos = 0 ∨ d.pos < resource.length := by
        have := h.phase
        rwa [PhaseSound, hp] at this
      obtain hzero | hlt := hsent
      · cases resource with
        | nil => exact .inl rfl
        | cons b resource => exact .inr (hzero ▸ Nat.zero_lt_succ _)
      · exact .inr hlt
  · -- ranged
    next first last total opens hp =>
    split at hs
    · obtain rfl := Option.some.inj hs
      obtain rfl : first = d.pos := he
      exact h.answer hp hlocal (totalFromContentRange_eq _ _ _ _) (List.take_prefix _ _)
    · cases hs
  · -- full
    next total opens hp =>
    obtain rfl := Option.some.inj hs
    refine h.answer hp hlocal ?_ (List.prefix_refl _)
    cases total with
    | false => exact .inl rfl
    | true => exact .inr rfl
  · next n skip body hp =>
    obtain rfl := Option.some.inj hs
    exact h.chunk hp n
  · next n taken skip body hp =>
    obtain rfl := Option.some.inj hs
    exact h.chunkTorn hp hlocal.1 n taken
  · -- bodyFailed
    next e skip body hp =>
    obtain ⟨hperm, hretry⟩ := isPermanent_fromReqwest e
    dsimp only at hs
    rw [if_pos hretry] at hs
    obtain rfl := Option.some.inj hs
    exact Sound.stallRetry h.toFileSound (hgoes hp fun r hr => by cases hr) hperm _
  · next skip body hp =>
    obtain rfl := Option.some.inj hs
    exact Sound.stallRetry h.toFileSound (hgoes hp fun r hr => by cases hr) rfl _
  · next flushed n skip body hp =>
    obtain rfl := Option.some.inj hs
    exact h.eof hp hlocal.1 flushed n
  · obtain rfl := Option.some.inj hs
    exact Sound.fail h.toFileSound fun hp => absurd hp Bool.noConfusion
  · next n =>
    obtain rfl := Option.some.inj hs
    exact h.flush hlocal.1 n
  · cases hs

theorem sound_start (hlocal : Local resource start sink) :
    Sound resource start sink (Download.start start sink) where
  total := .inl rfl
  pos_le := by
    obtain ⟨-, hmode⟩ := hlocal
    show start ≤ resource.length
    cases hm : sink.mode with
    | fresh =>
      rw [hm] at hmode
      exact (show start = 0 from hmode) ▸ Nat.zero_le _
    | resume off =>
      rw [hm] at hmode
      exact hmode.2.1
  before _ := ⟨rfl, rfl⟩
  placed hb := absurd hb Bool.noConfusion
  file hb := absurd hb Bool.noConfusion
  level _ hb := absurd hb Bool.noConfusion
  phase := trivial

variable (resource sink start d)

/-- **The file of a download is a front of the resource**, and all of it at a good end with a known
length, and the download is not given up for good when everything is there: in every run in which
every range starts where it was asked for and nothing is asked for behind the last byte. -/
theorem right_of_run (es : List Event) (hlocal : Local resource start sink)
    (hrun : run (step resource) (Download.start start sink) es = some d)
    (h : Along (step resource) (Honoured resource) (Download.start start sink) es) :
    Right resource sink d :=
  (run_invariant (fun _ _ _ hs he hstep => hs.step hlocal he hstep) (sound_start hlocal) h hrun).right

/-- A download goes on behind two bytes, stalls behind one more, and is sent everything then. -/
theorem resumed_right :
    let resource : List UInt8 := [1, 2, 3, 4, 5]
    let sink : Sink := { mode := .resume 2, disk := [1, 2] }
    ∃ d, run (step resource) (Download.start 2 sink)
        [.begin, .ranged 2 4 true true, .chunk 1, .stalled, .begin, .full false true, .chunk 4,
          .flushed 1, .chunk 1, .eof true 0] = some d ∧
      d.phase = .ended (.ok { transferred := 3, totalLen := some 5, restartedFromZero := false }) ∧
      Right resource sink d :=
  ⟨_, rfl, rfl, right_of_run [1, 2, 3, 4, 5] _ 2 _
    [.begin, .ranged 2 4 true true, .chunk 1, .stalled, .begin, .full false true, .chunk 4,
      .flushed 1, .chunk 1, .eof true 0] ⟨rfl, rfl, by decide, rfl⟩ rfl (by decide)⟩

/-- A range that starts elsewhere is written where the download stands, and taken for the rest; and
a connection that stalls behind the last byte ends in a 416. -/
theorem misplaced_or_refused :
    (let resource : List UInt8 := [1, 2, 3, 4, 5]
     let sink : Sink := { mode := .resume 2, disk := [1, 2] }
     ∃ d, Local resource 2 sink ∧
      run (step resource) (Download.start 2 sink)
        [.begin, .ranged 0 4 true true, .chunk 5, .eof true 0] = some d ∧
      d.sink.disk = [1, 2, 1, 2, 3, 4, 5] ∧ ¬ Right resource sink d) ∧
    (let resource : List UInt8 := [1, 2, 3]
     let sink : Sink := { mode := .fresh, disk := [] }
     ∃ d, Local resource 0 sink ∧
      run (step resource) (Download.start 0 sink)
        [.begin, .full true true, .chunk 3, .stalled, .begin, .refused 416] = some d ∧
      d.phase = .ended (.error (.http 416)) ∧ ¬ Right resource sink d) := by
  refine ⟨⟨_, ⟨rfl, rfl, by decide, rfl⟩, rfl, rfl, fun h => ?_⟩,
    ⟨_, ⟨rfl, rfl⟩, rfl, rfl, fun h => ?_⟩⟩
  · exact absurd (h.file rfl).1 (by decide)
  · exact absurd (h.lasting _ rfl rfl) (by decide)

end Download

end Http

end XferRust
