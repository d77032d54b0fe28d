/-! # Computations that may go wrong

A computation that returns a value or an error of its own, and that may also panic (an index out
of range, a difference below zero) or never come to an end (a loop that has used up more rounds
than it was given).  `Ensures` says that neither of the two happens, and what holds of the value.
-/

/-- How a computation fails. -/
inductive Fault (ε : Type) where
  /-- It returns an error. -/
  | error (e : ε)
  | panic
  /-- A loop was not done in the rounds that it was given. -/
  | endless
  deriving DecidableEq

/-- A computation that may return an error, panic or never end. -/
abbrev Guarded (ε α : Type) := Except (Fault ε) α

namespace Guarded

variable {ε α β : Type}

instance [DecidableEq ε] [DecidableEq α] : DecidableEq (Guarded ε α)
  | .ok a, .ok b => decidable_of_iff (a = b) ⟨congrArg Except.ok, Except.ok.inj⟩
  | .error e, .error f => decidable_of_iff (e = f) ⟨congrArg Except.error, Except.error.inj⟩
  | .ok _, .error _ => isFalse (fun h => nomatch h)
  | .error _, .ok _ => isFalse (fun h => nomatch h)

/-! ## Operations -/

/-- `return Err(e)`. -/
def fail (e : ε) : Guarded ε α := .error (.error e)

/-- An operation that panics unless it has a value. -/
def expect : Option α → Guarded ε α
  | some a => .ok a
  | none => .error .panic

/-- `xs[i]`. -/
def index (xs : List α) (i : Nat) : Guarded ε α := expect xs[i]?

/-- `&xs[a..b]`. -/
def slice (xs : List α) (a b : Nat) : Guarded ε (List α) :=
  if a ≤ b ∧ b ≤ xs.length then .ok ((xs.drop a).take (b - a)) else .error .panic

/-- `&xs[a..]`. -/
def sliceFrom (xs : List α) (a : Nat) : Guarded ε (List α) :=
  if a ≤ xs.length then .ok (xs.drop a) else .error .panic

/-- `xs[a..a + part.len()].copy_from_slice(part)`. -/
def overwrite (xs : List α) (a : Nat) (part : List α) : Guarded ε (List α) :=
  if a + part.length ≤ xs.length then .ok (xs.take a ++ part ++ xs.drop (a + part.length))
  else .error .panic

/-- `a - b`. -/
def sub (a b : Nat) : Guarded ε Nat := if b ≤ a then .ok (a - b) else .error .panic

/-- `debug_assert`. -/
def assert (p : Prop) [Decidable p] : Guarded ε Unit := if p then .ok () else .error .panic

/-! ## What is ensured -/

/-- No panic and no endless loop, and a value that is returned has the property. -/
def Ensures (p : Guarded ε α) (Q : α → Prop) : Prop :=
  match p with
  | .ok a => Q a
  | .error (.error _) => True
  | .error _ => False

/-- No panic and no endless loop. -/
def Safe (p : Guarded ε α) : Prop := Ensures p fun _ => True

variable {p : Guarded ε α}

theorem safe_iff : Safe p ↔ p ≠ .error .panic ∧ p ≠ .error .endless := by
  match p with
  | .ok a => simp [Safe, Ensures]
  | .error (.error e) => simp [Safe, Ensures]
  | .error .panic => simp [Safe, Ensures]
  | .error .endless => simp [Safe, Ensures]

variable {Q R : α → Prop}

theorem ensures_ok {a : α} (h : Q a) : Ensures (.ok a : Guarded ε α) Q := h

theorem ensures_fail (e : ε) : Ensures (fail e) Q := trivial

theorem Ensures.mono (h : Ensures p Q) (hQR : ∀ a, Q a → R a) : Ensures p R := by
  match p, h with
  | .ok a, h => exact hQR a h
  | .error (.error e), _ => trivial

theorem Ensures.safe (h : Ensures p Q) : Safe p := h.mono fun _ _ => trivial

variable {f : α → Guarded ε β}

/-- **Sequence rule.** -/
theorem Ensures.bind {S : β → Prop} (h : Ensures p Q) (hf : ∀ a, Q a → Ensures (f a) S) :
    Ensures (p >>= f) S := by
  match p, h with
  | .ok a, h => exact hf a h
  | .error (.error e), _ => trivial

theorem ok_bind (a : α) (f : α → Guarded ε β) : ((.ok a : Guarded ε α) >>= f) = f a := rfl

/-- A sequence returns what its second part returns behind its first. -/
theorem bind_eq_ok {b : β} : (p >>= f) = .ok b ↔ ∃ a, p = .ok a ∧ f a = .ok b := by
  match p with
  | .ok a => exact ⟨fun h => ⟨a, rfl, h⟩, fun ⟨_, ha, h⟩ => (Except.ok.inj ha) ▸ h⟩
  | .error e =>
    constructor
    · intro h
      change (.error e : Guarded ε β) = .ok b at h
      cases h
    · rintro ⟨a, ha, -⟩
      cases ha

/-- It comes to an end and returns a value. -/
def Returns (p : Guarded ε α) : Prop := ∃ a, p = .ok a

theorem returns_ok (a : α) : Returns (.ok a : Guarded ε α) := ⟨a, rfl⟩

theorem not_returns_error (e : Fault ε) : ¬Returns (.error e : Guarded ε α) := by
  rintro ⟨a, ha⟩
  cases ha

theorem returns_bind : Returns (p >>= f) ↔ ∃ a, p = .ok a ∧ Returns (f a) := by
  constructor
  · rintro ⟨b, h⟩
    obtain ⟨a, ha, hb⟩ := bind_eq_ok.mp h
    exact ⟨a, ha, b, hb⟩
  · rintro ⟨a, ha, b, hb⟩
    exact ⟨b, bind_eq_ok.mpr ⟨a, ha, hb⟩⟩

variable {xs : List α}

/-- A loop over a list returns if every round does. -/
theorem returns_foldlM {f : β → α → Guarded ε β} {R : α → Prop}
    (h : ∀ s, ∀ x ∈ xs, Returns (f s x) ↔ R x) (s : β) :
    Returns (xs.foldlM f s) ↔ ∀ x ∈ xs, R x := by
  induction xs generalizing s with
  | nil => exact iff_of_true ⟨s, rfl⟩ fun x hx => (List.not_mem_nil hx).elim
  | cons x xs ih =>
    obtain ⟨hx, hxs⟩ := forall_and.mp fun s => List.forall_mem_cons.mp (h s)
    rw [List.foldlM_cons, returns_bind, List.forall_mem_cons, ← hx s]
    constructor
    · rintro ⟨t, ht, hrest⟩
      exact ⟨⟨t, ht⟩, (ih hxs t).mp hrest⟩
    · rintro ⟨⟨t, ht⟩, hrest⟩
      exact ⟨t, ht, (ih hxs t).mpr hrest⟩

/-- What is safe as a whole is safe in its first part. -/
theorem Safe.of_bind (h : Safe (p >>= f)) : Safe p := by
  match p, h with
  | .ok a, _ => trivial
  | .error (.error e), _ => trivial

/-- **Conditional rule.** -/
theorem ensures_ite {c : Prop} [Decidable c] {q : Guarded ε α} (hp : c → Ensures p Q)
    (hq : ¬c → Ensures q Q) : Ensures (if c then p else q) Q := by
  by_cases h : c
  · rw [if_pos h]
    exact hp h
  · rw [if_neg h]
    exact hq h

/-- The value is the one that is computed. -/
theorem Ensures.value (h : Ensures p Q) : Ensures p fun a => Q a ∧ p = .ok a := by
  match p, h with
  | .ok a, h => exact ⟨h, rfl⟩
  | .error (.error e), _ => trivial

theorem Ensures.of_ok {a : α} (h : Ensures p Q) (hp : p = .ok a) : Q a := by
  rw [hp] at h
  exact h

/-! ## The operations within their bounds -/

theorem index_ok {i : Nat} {x : α} (h : xs[i]? = some x) : (index xs i : Guarded ε α) = .ok x := by
  rw [index, h]
  rfl

theorem ensures_index {i : Nat} (h : i < xs.length) :
    Ensures (index xs i : Guarded ε α) fun x => xs[i]? = some x := by
  rw [index_ok (List.getElem?_eq_getElem h)]
  exact List.getElem?_eq_getElem h

variable {a b : Nat}

theorem slice_ok (hab : a ≤ b) (hb : b ≤ xs.length) :
    (slice xs a b : Guarded ε (List α)) = .ok ((xs.drop a).take (b - a)) := if_pos ⟨hab, hb⟩

theorem sliceFrom_ok (h : a ≤ xs.length) :
    (sliceFrom xs a : Guarded ε (List α)) = .ok (xs.drop a) := if_pos h

theorem sub_ok (h : b ≤ a) : (sub a b : Guarded ε Nat) = .ok (a - b) := if_pos h

theorem assert_ok {p : Prop} [Decidable p] (h : p) : (assert p : Guarded ε Unit) = .ok () :=
  if_pos h

theorem ensures_sub (h : b ≤ a) : Ensures (sub a b : Guarded ε Nat) fun c => c = a - b := by
  rw [sub_ok h]
  exact ensures_ok rfl

theorem ensures_slice (hab : a ≤ b) (hb : b ≤ xs.length) :
    Ensures (slice xs a b : Guarded ε (List α)) fun s => s.length = b - a := by
  rw [slice_ok hab hb]
  show ((xs.drop a).take (b - a)).length = b - a
  rw [List.length_take, List.length_drop]
  omega

theorem ensures_overwrite {part : List α} (h : a + part.length ≤ xs.length) :
    Ensures (overwrite xs a part : Guarded ε (List α)) fun ys => ys.length = xs.length := by
  rw [overwrite, if_pos h]
  show (xs.take a ++ part ++ xs.drop (a + part.length)).length = xs.length
  rw [List.length_append, List.length_append, List.length_take, List.length_drop]
  omega

end Guarded
