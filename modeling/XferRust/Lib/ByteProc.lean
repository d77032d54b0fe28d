/-! # Routines over a byte stream

A sequential routine that reads from a stream and writes to one: a tree of its reads and writes.
A read asks for at most so many bytes and gets some of them, as many as there happen to be; it
gets none when the other end is closed.  `Finishes` says what a finished execution has read, has
written and returns, whatever the cuts were; its rules follow the composition of routines, so
that what a routine does is read off its text.

`Duplex` puts two routines at the ends of two streams and lets them run in any order.  Whatever
the order, a routine that has finished has done what `Finishes` says, on the bytes that the other
one has written (`Duplex.Sound`).
-/

/-- A routine with results in `α` and errors in `ε`. -/
inductive ByteProc (ε α : Type) where
  | done (a : α)
  | fail (e : ε)
  | read (max : Nat) (next : List UInt8 → ByteProc ε α)
  | write (bytes : List UInt8) (next : ByteProc ε α)

namespace ByteProc

variable {ε α β : Type}

/-- One routine after the other. -/
def bind : ByteProc ε α → (α → ByteProc ε β) → ByteProc ε β
  | done a, f => f a
  | fail e, _ => fail e
  | read max next, f => read max fun c => (next c).bind f
  | write bytes next, f => write bytes (next.bind f)

instance : Monad (ByteProc ε) where
  pure := done
  bind := bind

/-- The result of a routine whose stream comes in these cuts, one for each read, and ends behind
them; and the cuts that it has not read. -/
def onCuts : ByteProc ε α → List (List UInt8) → Except ε α × List (List UInt8)
  | done a, cuts => (.ok a, cuts)
  | fail e, cuts => (.error e, cuts)
  | read _ next, [] => (next []).onCuts []
  | read _ next, c :: cuts => (next c).onCuts cuts
  | write _ next, cuts => next.onCuts cuts

/-- `p` finishes with `a`, having read `i` in whatever cuts and written `w`. -/
def Finishes : ByteProc ε α → (i w : List UInt8) → α → Prop
  | done a, i, w, b => i = [] ∧ w = [] ∧ a = b
  | fail _, _, _, _ => False
  | read max next, i, w, b =>
    ∃ c i', i = c ++ i' ∧ c.length ≤ max ∧ (next c).Finishes i' w b
  | write bytes next, i, w, b => ∃ w', w = bytes ++ w' ∧ next.Finishes i w' b

variable {p : ByteProc ε α} {i w : List UInt8} {f : α → ByteProc ε β}

/-- **Composition.**  What the one has read and written comes before what the other has. -/
theorem finishes_bind {b : β} :
    (p >>= f).Finishes i w b ↔ ∃ i₁ i₂ w₁ w₂ a, i = i₁ ++ i₂ ∧ w = w₁ ++ w₂ ∧
      p.Finishes i₁ w₁ a ∧ (f a).Finishes i₂ w₂ b := by
  change (p.bind f).Finishes i w b ↔ _
  induction p generalizing i w with
  | done a =>
    constructor
    · intro h
      exact ⟨[], i, [], w, a, rfl, rfl, ⟨rfl, rfl, rfl⟩, h⟩
    · rintro ⟨_, i₂, _, w₂, _, rfl, rfl, ⟨rfl, rfl, rfl⟩, h⟩
      exact h
  | fail e =>
    constructor
    · exact False.elim
    · rintro ⟨_, _, _, _, _, -, -, h, -⟩
      exact h
  | read max next ih =>
    constructor
    · rintro ⟨c, i', rfl, hc, h⟩
      obtain ⟨i₁, i₂, w₁, w₂, a, rfl, rfl, h₁, h₂⟩ := (ih c).mp h
      exact ⟨c ++ i₁, i₂, w₁, w₂, a, (List.append_assoc ..).symm, rfl, ⟨c, i₁, rfl, hc, h₁⟩, h₂⟩
    · rintro ⟨_, i₂, w₁, w₂, a, rfl, rfl, ⟨c, i₁, rfl, hc, h₁⟩, h₂⟩
      exact ⟨c, i₁ ++ i₂, List.append_assoc .., hc, (ih c).mpr ⟨i₁, i₂, w₁, w₂, a, rfl, rfl, h₁, h₂⟩⟩
  | write bytes next ih =>
    constructor
    · rintro ⟨w', rfl, h⟩
      obtain ⟨i₁, i₂, w₁, w₂, a, rfl, rfl, h₁, h₂⟩ := ih.mp h
      exact ⟨i₁, i₂, bytes ++ w₁, w₂, a, rfl, (List.append_assoc ..).symm, ⟨w₁, rfl, h₁⟩, h₂⟩
    · rintro ⟨i₁, i₂, _, w₂, a, rfl, rfl, ⟨w₁, rfl, h₁⟩, h₂⟩
      exact ⟨w₁ ++ w₂, List.append_assoc .., ih.mpr ⟨i₁, i₂, w₁, w₂, a, rfl, rfl, h₁, h₂⟩⟩

/-! ## Small routines -/

/-- Write everything. -/
def writeAll (bytes : List UInt8) : ByteProc ε Unit := write bytes (done ())

/-- Fail when something is wrong. -/
def rejectIf (bad : Bool) (e : ε) : ByteProc ε Unit := if bad then fail e else done ()

/-- Read until `out` has grown by `need` bytes.  A read that does not end the stream brings a byte
or more, and so `need` rounds are enough. -/
def readMore (eof : ε) : (rounds need : Nat) → (out : List UInt8) → ByteProc ε (List UInt8)
  | 0, _, out => done out
  | rounds + 1, need, out =>
    if need = 0 then done out
    else
      read need fun c =>
        if c = [] then fail eof else readMore eof rounds (need - c.length) (out ++ c)

/-- Read exactly `n` bytes. -/
def readExact (eof : ε) (n : Nat) : ByteProc ε (List UInt8) := readMore eof n n []

theorem finishes_writeAll {bytes : List UInt8} {u : Unit} :
    (writeAll bytes : ByteProc ε Unit).Finishes i w u ↔ i = [] ∧ w = bytes := by
  constructor
  · rintro ⟨w', rfl, rfl, rfl, -⟩
    exact ⟨rfl, List.append_nil _⟩
  · rintro ⟨rfl, rfl⟩
    exact ⟨[], (List.append_nil _).symm, rfl, rfl, rfl⟩

variable {bad : Bool} {eof : ε} {n : Nat}

theorem finishes_rejectIf {e : ε} {u : Unit} :
    (rejectIf bad e).Finishes i w u ↔ bad = false ∧ i = [] ∧ w = [] := by
  cases bad with
  | false => exact ⟨fun h => ⟨rfl, h.1, h.2.1⟩, fun h => ⟨h.2.1, h.2.2, rfl⟩⟩
  | true =>
    constructor
    · exact False.elim
    · rintro ⟨h, -⟩
      cases h

/-- Behind bytes that are written. -/
theorem finishes_writeAll_bind {bytes : List UInt8} {f : Unit → ByteProc ε α} {a : α}
    (h : (writeAll bytes >>= f).Finishes i w a) : ∃ u, w = bytes ++ u ∧ (f ()).Finishes i u a := by
  obtain ⟨_, _, _, u, _, rfl, rfl, hwrite, hf⟩ := finishes_bind.mp h
  obtain ⟨rfl, rfl⟩ := finishes_writeAll.mp hwrite
  exact ⟨u, rfl, hf⟩

/-- Behind a check that has passed. -/
theorem finishes_rejectIf_bind {e : ε} {f : Unit → ByteProc ε α} {a : α}
    (h : (rejectIf bad e >>= f).Finishes i w a) : bad = false ∧ (f ()).Finishes i w a := by
  obtain ⟨_, _, _, _, _, rfl, rfl, hreject, hf⟩ := finishes_bind.mp h
  obtain ⟨hbad, rfl, rfl⟩ := finishes_rejectIf.mp hreject
  exact ⟨hbad, hf⟩

theorem finishes_readMore {rounds need : Nat} {out a : List UInt8} (hrounds : need ≤ rounds)
    (h : (readMore eof rounds need out).Finishes i w a) :
    a = out ++ i ∧ i.length = need ∧ w = [] := by
  induction rounds generalizing need out i with
  | zero =>
    obtain ⟨rfl, rfl, rfl⟩ := h
    exact ⟨(List.append_nil _).symm, (Nat.le_zero.mp hrounds).symm, rfl⟩
  | succ rounds ih =>
    unfold readMore at h
    split at h
    · rename_i hneed
      obtain ⟨rfl, rfl, rfl⟩ := h
      exact ⟨(List.append_nil _).symm, hneed.symm, rfl⟩
    · obtain ⟨c, i', rfl, hc, h⟩ := h
      dsimp only at h
      split at h
      · exact h.elim
      · rename_i hne
        have hpos : 0 < c.length := List.length_pos_iff.mpr hne
        obtain ⟨rfl, hlen, hw⟩ := ih (by omega) h
        refine ⟨List.append_assoc .., ?_, hw⟩
        rw [List.length_append, hlen]
        omega

/-- What `readExact` returns is what it has read, and of the length asked for. -/
theorem finishes_readExact {a : List UInt8} (h : (readExact eof n).Finishes i w a) :
    a = i ∧ i.length = n ∧ w = [] :=
  finishes_readMore (Nat.le_refl n) h

/-- Behind a read. -/
theorem finishes_readExact_bind {f : List UInt8 → ByteProc ε α} {a : α}
    (h : (readExact eof n >>= f).Finishes i w a) :
    ∃ bytes i', i = bytes ++ i' ∧ bytes.length = n ∧ (f bytes).Finishes i' w a := by
  obtain ⟨_, i', _, _, bytes, rfl, rfl, hread, hf⟩ := finishes_bind.mp h
  obtain ⟨rfl, hlen, rfl⟩ := finishes_readExact hread
  exact ⟨bytes, i', rfl, hlen, hf⟩

/-! ## Executions -/

/-- `p` can come to `p'` by reading `i`, cut in some way, and writing `w`. -/
inductive Reaches : ByteProc ε α → (i w : List UInt8) → ByteProc ε α → Prop where
  | refl (p : ByteProc ε α) : Reaches p [] [] p
  | write {bytes next i w p'} (h : Reaches next i w p') :
      Reaches (.write bytes next) i (bytes ++ w) p'
  | read {max next c i w p'} (hc : c.length ≤ max) (h : Reaches (next c) i w p') :
      Reaches (.read max next) (c ++ i) w p'

variable {i₁ i₂ w₁ w₂ : List UInt8}

theorem Reaches.trans {q r : ByteProc ε α} (h₁ : Reaches p i₁ w₁ q) (h₂ : Reaches q i₂ w₂ r) :
    Reaches p (i₁ ++ i₂) (w₁ ++ w₂) r := by
  induction h₁ with
  | refl => exact h₂
  | write _ ih =>
    rw [List.append_assoc]
    exact (ih h₂).write
  | read hc _ ih =>
    rw [List.append_assoc]
    exact (ih h₂).read hc

theorem Reaches.bind {p' : ByteProc ε α} (h : Reaches p i w p') (f : α → ByteProc ε β) :
    Reaches (p >>= f) i w (p' >>= f) := by
  induction h with
  | refl => exact .refl _
  | write _ ih => exact ih.write
  | read hc _ ih => exact ih.read hc

variable {a : α} {q : ByteProc ε β}

/-- A routine that comes to its end, and what follows it. -/
theorem Reaches.andThen (h₁ : Reaches p i₁ w₁ (.done a)) (h₂ : Reaches (f a) i₂ w₂ q) :
    Reaches (p >>= f) (i₁ ++ i₂) (w₁ ++ w₂) q :=
  (h₁.bind f).trans h₂

/-- First a part that neither reads nor writes. -/
theorem Reaches.silent (h₁ : Reaches p [] [] (.done a)) (h₂ : Reaches (f a) i w q) :
    Reaches (p >>= f) i w q := h₁.andThen h₂

/-- First a part that only reads. -/
theorem Reaches.reads (h₁ : Reaches p i₁ [] (.done a)) (h₂ : Reaches (f a) i₂ w q) :
    Reaches (p >>= f) (i₁ ++ i₂) w q := h₁.andThen h₂

/-- First a part that only writes. -/
theorem Reaches.writes (h₁ : Reaches p [] w₁ (.done a)) (h₂ : Reaches (f a) i w₂ q) :
    Reaches (p >>= f) i (w₁ ++ w₂) q := h₁.andThen h₂

/-- `p` can come to its end. -/
def Ends (p : ByteProc ε α) (i w : List UInt8) : Prop := ∃ o, Reaches p i w (.done o)

theorem Ends.of_done (a : α) : Ends (.done a : ByteProc ε α) [] [] := ⟨a, .refl _⟩

theorem Reaches.readsEnds (h₁ : Reaches p i₁ [] (.done a)) (h₂ : Ends (f a) i₂ w) :
    Ends (p >>= f) (i₁ ++ i₂) w := by
  obtain ⟨o, ho⟩ := h₂
  exact ⟨o, h₁.reads ho⟩

theorem Reaches.silentEnds (h₁ : Reaches p [] [] (.done a)) (h₂ : Ends (f a) i w) :
    Ends (p >>= f) i w :=
  h₁.readsEnds h₂

theorem Reaches.writesEnds (h₁ : Reaches p [] w₁ (.done a)) (h₂ : Ends (f a) i w₂) :
    Ends (p >>= f) i (w₁ ++ w₂) := by
  obtain ⟨o, ho⟩ := h₂
  exact ⟨o, h₁.writes ho⟩

theorem Reaches.toEnds {q : ByteProc ε α} (h₁ : Reaches p i₁ w₁ q) (h₂ : Ends q i₂ w₂) :
    Ends p (i₁ ++ i₂) (w₁ ++ w₂) := by
  obtain ⟨o, ho⟩ := h₂
  exact ⟨o, h₁.trans ho⟩

theorem reaches_writeAll (bytes : List UInt8) :
    Reaches (writeAll bytes : ByteProc ε Unit) [] bytes (.done ()) := by
  have h : Reaches (writeAll bytes : ByteProc ε Unit) [] (bytes ++ []) (.done ()) :=
    (Reaches.refl (done () : ByteProc ε Unit)).write
  rwa [List.append_nil] at h

/-- A routine that writes and is done. -/
theorem ends_writeAll (bytes : List UInt8) (a : α) :
    Ends (do writeAll bytes; return a : ByteProc ε α) [] bytes :=
  ⟨a, (reaches_writeAll bytes).bind _⟩

theorem reaches_rejectIf (h : bad = false) (e : ε) : Reaches (rejectIf bad e) [] [] (.done ()) := by
  rw [h]
  exact .refl _

/-- As many bytes as are asked for, in one read. -/
theorem reaches_readExact (eof : ε) {data : List UInt8} (h : data.length = n) :
    Reaches (readExact eof n) data [] (.done data) := by
  subst h
  unfold readExact
  cases data with
  | nil => exact .refl _
  | cons b data =>
    have hend : Reaches (readMore eof data.length 0 (b :: data)) [] [] (.done (b :: data)) := by
      cases data <;> exact .refl _
    have hread : Reaches (readMore eof (b :: data).length (b :: data).length [])
        ((b :: data) ++ []) [] (.done (b :: data)) := by
      refine .read (Nat.le_refl _) ?_
      rw [if_neg (List.cons_ne_nil _ _), Nat.sub_self]
      exact hend
    rwa [List.append_nil] at hread

end ByteProc

/-! ## Two routines with two streams between them -/

/-- The two routines, what is on the way in each direction, and what each side has written after
its routine was finished. -/
structure Duplex (ε α : Type) where
  a : ByteProc ε α
  b : ByteProc ε α
  /-- Written by `a` and not yet read by `b`. -/
  ab : List UInt8
  /-- Written by `b` and not yet read by `a`. -/
  ba : List UInt8
  /-- What the owner of the finished routine `a` has written since. -/
  appA : List UInt8
  appB : List UInt8

namespace Duplex

open ByteProc
variable {ε α : Type}

/-- Two routines before their first action, and nothing on the way. -/
def start (p q : ByteProc ε α) : Duplex ε α :=
  { a := p, b := q, ab := [], ba := [], appA := [], appB := [] }

/-- One action of one side.  A read takes any part of what is there that it has room for, and
takes nothing when the connection is closed. -/
inductive Step : Duplex ε α → Duplex ε α → Prop where
  | writeA {s bytes next} (h : s.a = .write bytes next) :
      Step s { s with a := next, ab := s.ab ++ bytes }
  | writeB {s bytes next} (h : s.b = .write bytes next) :
      Step s { s with b := next, ba := s.ba ++ bytes }
  | readA {s max next c rest} (h : s.a = .read max next) (hba : s.ba = c ++ rest)
      (hc : c.length ≤ max) : Step s { s with a := next c, ba := rest }
  | readB {s max next c rest} (h : s.b = .read max next) (hab : s.ab = c ++ rest)
      (hc : c.length ≤ max) : Step s { s with b := next c, ab := rest }
  | sendA {s o} (bytes : List UInt8) (h : s.a = .done o) :
      Step s { s with ab := s.ab ++ bytes, appA := s.appA ++ bytes }
  | sendB {s o} (bytes : List UInt8) (h : s.b = .done o) :
      Step s { s with ba := s.ba ++ bytes, appB := s.appB ++ bytes }

/-- The steps of both sides in whatever order. -/
inductive Steps (s : Duplex ε α) : Duplex ε α → Prop where
  | refl : Steps s s
  | tail {t u} (hst : Steps s t) (htu : Step t u) : Steps s u

/-- `p` has come to `now` by reading `i` and writing `w`: whatever `now` does to its end, `p` does
with these before. -/
def Came (p now : ByteProc ε α) (i w : List UInt8) : Prop :=
  ∀ i' w' o, now.Finishes i' w' o → p.Finishes (i ++ i') (w ++ w') o

theorem Came.refl (p : ByteProc ε α) : Came p p [] [] := fun _ _ _ h => h

variable {p : ByteProc ε α} {i w : List UInt8}

theorem Came.write {next : ByteProc ε α} {bytes : List UInt8} (h : Came p (.write bytes next) i w) :
    Came p next i (w ++ bytes) := by
  intro i' w' o hf
  rw [List.append_assoc]
  exact h i' (bytes ++ w') o ⟨w', rfl, hf⟩

theorem Came.read {max : Nat} {next : List UInt8 → ByteProc ε α} {c : List UInt8}
    (h : Came p (.read max next) i w) (hc : c.length ≤ max) : Came p (next c) (i ++ c) w := by
  intro i' w' o hf
  rw [List.append_assoc]
  exact h (c ++ i') w' o ⟨c, i', rfl, hc, hf⟩

theorem Came.done {o : α} (h : Came p (.done o) i w) : p.Finishes i w o := by
  have hf := h [] [] o ⟨rfl, rfl, rfl⟩
  rwa [List.append_nil, List.append_nil] at hf

/-- Each side has come where it is on the bytes that the other has written: what it has read and
what is on the way to it are what the other's routine wrote, and what its owner wrote after. -/
structure Sound (p q : ByteProc ε α) (s : Duplex ε α) (iA wA iB wB : List UInt8) : Prop where
  a : Came p s.a iA wA
  b : Came q s.b iB wB
  toB : iB ++ s.ab = wA ++ s.appA
  toA : iA ++ s.ba = wB ++ s.appB

/-- The owner of a routine that is not finished has not written. -/
structure Quiet (s : Duplex ε α) : Prop where
  a : (∀ o, s.a ≠ .done o) → s.appA = []
  b : (∀ o, s.b ≠ .done o) → s.appB = []

theorem write_ne_done {bytes : List UInt8} {next : ByteProc ε α} (h : p = .write bytes next)
    (o : α) : p ≠ .done o := by
  rw [h]
  intro he
  cases he

theorem read_ne_done {max : Nat} {next : List UInt8 → ByteProc ε α} (h : p = .read max next)
    (o : α) : p ≠ .done o := by
  rw [h]
  intro he
  cases he

variable {s : Duplex ε α}
variable {t : Duplex ε α} {q : ByteProc ε α}

theorem Step.quiet (h : Step s t) (hq : Quiet s) : Quiet t := by
  cases h with
  | writeA h => exact ⟨fun _ => hq.a (write_ne_done h), hq.b⟩
  | writeB h => exact ⟨hq.a, fun _ => hq.b (write_ne_done h)⟩
  | readA h => exact ⟨fun _ => hq.a (read_ne_done h), hq.b⟩
  | readB h => exact ⟨hq.a, fun _ => hq.b (read_ne_done h)⟩
  | sendA bytes h => exact ⟨fun hno => absurd h (hno _), hq.b⟩
  | sendB bytes h => exact ⟨hq.a, fun hno => absurd h (hno _)⟩

/-- What one step keeps. -/
theorem Step.sound {iA wA iB wB : List UInt8} (h : Step s t) (hq : Quiet s)
    (hs : Sound p q s iA wA iB wB) : ∃ iA' wA' iB' wB', Sound p q t iA' wA' iB' wB' := by
  obtain ⟨ha, hb, hab, hba⟩ := hs
  cases h with
  | @writeA bytes next h =>
    refine ⟨iA, wA ++ bytes, iB, wB, (h ▸ ha).write, hb, ?_, hba⟩
    rw [hq.a (write_ne_done h), List.append_nil] at hab ⊢
    rw [← List.append_assoc, hab]
  | @writeB bytes next h =>
    refine ⟨iA, wA, iB, wB ++ bytes, ha, (h ▸ hb).write, hab, ?_⟩
    rw [hq.b (write_ne_done h), List.append_nil] at hba ⊢
    rw [← List.append_assoc, hba]
  | @readA max next c rest h hc hmax =>
    refine ⟨iA ++ c, wA, iB, wB, (h ▸ ha).read hmax, hb, hab, ?_⟩
    rw [List.append_assoc, ← hc, hba]
  | @readB max next c rest h hc hmax =>
    refine ⟨iA, wA, iB ++ c, wB, ha, (h ▸ hb).read hmax, ?_, hba⟩
    rw [List.append_assoc, ← hc, hab]
  | sendA bytes h =>
    refine ⟨iA, wA, iB, wB, ha, hb, ?_, hba⟩
    rw [← List.append_assoc, hab, List.append_assoc]
  | sendB bytes h =>
    refine ⟨iA, wA, iB, wB, ha, hb, hab, ?_⟩
    rw [← List.append_assoc, hba, List.append_assoc]

/-- What every run keeps. -/
theorem Steps.sound (h : Steps (start p q) s) :
    Quiet s ∧ ∃ iA wA iB wB, Sound p q s iA wA iB wB := by
  induction h with
  | refl =>
    exact ⟨⟨fun _ => rfl, fun _ => rfl⟩,
      [], [], [], [], Came.refl p, Came.refl q, rfl, rfl⟩
  | tail _ htu ih =>
    obtain ⟨hq, iA, wA, iB, wB, hs⟩ := ih
    exact ⟨htu.quiet hq, htu.sound hq hs⟩

/-- **Both have finished**: each on what the other one wrote, in every order of their steps. -/
theorem Steps.finished {oa ob : α} (h : Steps (start p q) s) (ha : s.a = .done oa)
    (hb : s.b = .done ob) :
    ∃ iA wA iB wB, p.Finishes iA wA oa ∧ q.Finishes iB wB ob ∧
      iB ++ s.ab = wA ++ s.appA ∧ iA ++ s.ba = wB ++ s.appB := by
  obtain ⟨-, iA, wA, iB, wB, hs⟩ := h.sound
  exact ⟨iA, wA, iB, wB, (ha ▸ hs.a).done, (hb ▸ hs.b).done, hs.toB, hs.toA⟩

theorem Steps.trans {u : Duplex ε α} (h₁ : Steps s t) (h₂ : Steps t u) : Steps s u := by
  induction h₂ with
  | refl => exact h₁
  | tail _ htu ih => exact ih.tail htu

/-- One side does what its routine can do on the bytes that are there for it. -/
theorem Steps.ofReachesA {p' : ByteProc ε α} (rest : List UInt8) (h : Reaches p i w p')
    (ha : s.a = p) (hba : s.ba = i ++ rest) :
    Steps s { s with a := p', ba := rest, ab := s.ab ++ w } := by
  induction h generalizing s with
  | refl =>
    rw [List.append_nil, ← ha, ← show s.ba = rest from hba]
    exact .refl
  | @write bytes next i w p' _ ih =>
    have hfirst : Step s { s with a := next, ab := s.ab ++ bytes } := .writeA ha
    have hrest := ih (s := { s with a := next, ab := s.ab ++ bytes }) rfl hba
    rw [List.append_assoc] at hrest
    exact (Steps.refl.tail hfirst).trans hrest
  | @read max next c i w p' hc _ ih =>
    rw [List.append_assoc] at hba
    have hfirst : Step s { s with a := next c, ba := i ++ rest } := .readA ha hba hc
    exact (Steps.refl.tail hfirst).trans (ih (s := { s with a := next c, ba := i ++ rest }) rfl rfl)

theorem Steps.ofReachesB {p' : ByteProc ε α} (rest : List UInt8) (h : Reaches p i w p')
    (hb : s.b = p) (hab : s.ab = i ++ rest) :
    Steps s { s with b := p', ab := rest, ba := s.ba ++ w } := by
  induction h generalizing s with
  | refl =>
    rw [List.append_nil, ← hb, ← show s.ab = rest from hab]
    exact .refl
  | @write bytes next i w p' _ ih =>
    have hfirst : Step s { s with b := next, ba := s.ba ++ bytes } := .writeB hb
    have hrest := ih (s := { s with b := next, ba := s.ba ++ bytes }) rfl hab
    rw [List.append_assoc] at hrest
    exact (Steps.refl.tail hfirst).trans hrest
  | @read max next c i w p' hc _ ih =>
    rw [List.append_assoc] at hab
    have hfirst : Step s { s with b := next c, ab := i ++ rest } := .readB hb hab hc
    exact (Steps.refl.tail hfirst).trans (ih (s := { s with b := next c, ab := i ++ rest }) rfl rfl)

end Duplex
