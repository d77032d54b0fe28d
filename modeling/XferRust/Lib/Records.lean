/-! # Records of a fixed size

A byte string of records that all have one length, and back.
-/

/-- Bytes of a given number, as an array `[u8; n]` holds them. -/
structure Octets (n : Nat) where
  bytes : List UInt8
  length_eq : bytes.length = n
  deriving DecidableEq

namespace Octets

variable {n : Nat}

@[simp] theorem length_bytes (o : Octets n) : o.bytes.length = n := o.length_eq

theorem ext_bytes {o p : Octets n} (h : o.bytes = p.bytes) : o = p := by
  obtain ⟨o, ho⟩ := o
  obtain ⟨p, hp⟩ := p
  obtain rfl := h
  rfl

/-- An array of zeros with a slice copied over its front. -/
def ofSlice (n : Nat) (slice : List UInt8) : Octets n :=
  ⟨(slice ++ List.replicate n 0).take n, by
    rw [List.length_take, List.length_append, List.length_replicate]
    omega⟩

/-- A slice of the array's length is copied whole. -/
theorem ofSlice_append (o : Octets n) (rest : List UInt8) : ofSlice n (o.bytes ++ rest) = o := by
  apply ext_bytes
  show ((o.bytes ++ rest) ++ List.replicate n 0).take n = o.bytes
  rw [List.append_assoc]
  exact List.take_left' o.length_eq

theorem ofSlice_bytes (o : Octets n) : ofSlice n o.bytes = o := by
  have h := ofSlice_append o []
  rwa [List.append_nil] at h

end Octets

namespace Records

variable {α : Type}

/-- `count` records of `k` elements. -/
def split (k : Nat) : Nat → List α → List (List α)
  | 0, _ => []
  | count + 1, xs => xs.take k :: split k count (xs.drop k)

/-- `chunks_exact`: the whole records of `k` elements; what is left over is not among them. -/
def chunksExact (k : Nat) (xs : List α) : List (List α) := split k (xs.length / k) xs

variable {k : Nat} {records : List (List α)} {r : List α}

theorem split_flatten (h : ∀ r ∈ records, r.length = k) :
    split k records.length records.flatten = records := by
  induction records with
  | nil => rfl
  | cons r records ih =>
    obtain ⟨hr, hrecords⟩ := List.forall_mem_cons.mp h
    rw [List.length_cons, split, List.flatten_cons, List.take_left' hr, List.drop_left' hr,
      ih hrecords]

theorem length_flatten (h : ∀ r ∈ records, r.length = k) :
    records.flatten.length = records.length * k := by
  induction records with
  | nil => rw [List.length_nil, Nat.zero_mul]; rfl
  | cons r records ih =>
    obtain ⟨hr, hrecords⟩ := List.forall_mem_cons.mp h
    rw [List.flatten_cons, List.length_append, hr, ih hrecords, List.length_cons, Nat.succ_mul,
      Nat.add_comm]

/-- **Records written one after the other are read one after the other.** -/
theorem chunksExact_flatten (hk : 0 < k) (h : ∀ r ∈ records, r.length = k) :
    chunksExact k records.flatten = records := by
  rw [chunksExact, length_flatten h, Nat.mul_div_cancel _ hk, split_flatten h]

theorem length_of_mem_split : ∀ {count : Nat} {xs : List α},
    count * k ≤ xs.length → r ∈ split k count xs → r.length = k := by
  intro count
  induction count with
  | zero => exact fun _ h => (List.not_mem_nil h).elim
  | succ count ih =>
    intro xs hlen h
    rw [Nat.succ_mul] at hlen
    rcases List.mem_cons.mp h with rfl | h
    · rw [List.length_take]
      omega
    · refine ih ?_ h
      rw [List.length_drop]
      omega

theorem length_of_mem_chunksExact {xs : List α} (h : r ∈ chunksExact k xs) : r.length = k :=
  length_of_mem_split (Nat.div_mul_le_self xs.length k) h

/-- One record alone. -/
theorem chunksExact_self (hk : 0 < k) (h : r.length = k) : chunksExact k r = [r] := by
  have hone : chunksExact k [r].flatten = [r] :=
    chunksExact_flatten hk fun s hs => (List.mem_singleton.mp hs) ▸ h
  rwa [List.flatten_cons, List.flatten_nil, List.append_nil] at hone

end Records
