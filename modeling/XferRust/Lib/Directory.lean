/-! # Files with names

A file system as its callers see it: a name leads to a file, and the file has its bytes.  An open
file stays the same file when its name leads elsewhere or is gone; to create a file under a name
that is taken empties the file that is there, and to rename one puts it in the place of another.
-/

/-- Names of files, and what is in the files. -/
structure Directory (π : Type) where
  names : π → Option Nat
  data : Nat → List UInt8
  next : Nat
  /-- The numbers of files that are still to come are not in use. -/
  known : ∀ p i, names p = some i → i < next

namespace Directory

variable {π : Type} [DecidableEq π]

/-- A function, changed at one place. -/
def put {α β : Type} [DecidableEq α] (f : α → β) (a : α) (b : β) : α → β :=
  fun x => if x = a then b else f x

theorem put_self {α β : Type} [DecidableEq α] (f : α → β) (a : α) (b : β) : put f a b a = b :=
  if_pos rfl

theorem put_of_ne {α β : Type} [DecidableEq α] {f : α → β} {a x : α} {b : β} (h : x ≠ a) :
    put f a b x = f x := if_neg h

/-- There is a file of this name. -/
def Has (d : Directory π) (p : π) : Prop := (d.names p).isSome = true

instance decidableHas (d : Directory π) (p : π) : Decidable (d.Has p) :=
  inferInstanceAs (Decidable (_ = true))

omit [DecidableEq π] in
theorem not_has {d : Directory π} {p : π} : ¬d.Has p ↔ d.names p = none := by
  unfold Has
  cases d.names p with
  | none => exact iff_of_true (fun h => Bool.noConfusion h) rfl
  | some i => exact iff_of_false (fun h => h rfl) nofun

/-- Creates a file, or empties the one that is there, and opens it. -/
def create (d : Directory π) (p : π) : Directory π × Nat :=
  match d.names p with
  | some i => ({ d with data := put d.data i [] }, i)
  | none =>
    ({ names := put d.names p (some d.next)
       data := put d.data d.next []
       next := d.next + 1
       known := fun q i hq => by
        unfold put at hq
        split at hq
        · exact (Option.some.inj hq) ▸ Nat.lt_succ_self _
        · exact Nat.lt_succ_of_lt (d.known q i hq) }, d.next)

/-- Bytes at a place of what there is; a gap is filled with zeros. -/
def writeAt (old : List UInt8) (pos : Nat) (bytes : List UInt8) : List UInt8 :=
  old.take pos ++ List.replicate (pos - old.length) 0 ++ bytes ++ old.drop (pos + bytes.length)

/-- Writes to an open file. -/
def write (d : Directory π) (i pos : Nat) (bytes : List UInt8) : Directory π :=
  { d with data := put d.data i (writeAt (d.data i) pos bytes) }

/-- Takes a name away. -/
def remove (d : Directory π) (p : π) : Directory π :=
  { d with
    names := put d.names p none
    known := fun q i hq => by
      unfold put at hq
      split at hq
      · cases hq
      · exact d.known q i hq }

/-- Gives a file another name, in the place of the file that had it. -/
def rename (d : Directory π) (p q : π) : Option (Directory π) :=
  match h : d.names p with
  | none => none
  | some i => some
    { d with
      names := put (put d.names p none) q (some i)
      known := fun r j hr => by
        unfold put at hr
        split at hr
        · exact (Option.some.inj hr) ▸ d.known p i h
        · split at hr
          · cases hr
          · exact d.known r j hr }

section
variable {d d' : Directory π} {p q : π} {i : Nat}

/-- A new file. -/
theorem create_new (h : d.names p = none) :
    (d.create p).2 = d.next ∧ (d.create p).1.names = put d.names p (some d.next) ∧
      (d.create p).1.data = put d.data d.next [] ∧ (d.create p).1.next = d.next + 1 := by
  unfold create
  rw [h]
  exact ⟨rfl, rfl, rfl, rfl⟩

theorem rename_eq_some (h : d.rename p q = some d') :
    ∃ i, d.names p = some i ∧ d'.names = put (put d.names p none) q (some i) ∧
      d'.data = d.data ∧ d'.next = d.next := by
  unfold rename at h
  split at h
  · cases h
  · rename_i i hi
    obtain rfl := Option.some.inj h
    exact ⟨i, hi, rfl, rfl, rfl⟩

/-- Bytes behind all there is. -/
theorem writeAt_end (old bytes : List UInt8) : writeAt old old.length bytes = old ++ bytes := by
  unfold writeAt
  rw [List.take_length, Nat.sub_self, List.drop_eq_nil_of_le (Nat.le_add_right _ _),
    List.replicate_zero, List.append_nil, List.append_nil]

end

end Directory
