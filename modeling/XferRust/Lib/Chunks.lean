/-! # A stream that arrives in chunks

What is read from a stream comes in pieces of whatever length: the stream is the list of the
chunks that the reads to come return, and it ends where the list ends.  `fillTo` is the loop that
every incremental reader has: read until so much is in the buffer.  It loses nothing and
repeats nothing, however the stream is cut.

A consumer that takes what comes and gives out what it can is the other kind of reader.  When one
chunk is the same to it as its two parts, all ways of cutting a stream are.
-/
namespace Chunks

variable {α : Type}

/-- Read into `buf` until `n` elements are in it.  The first component tells whether they are:
it is `false` when a read returned nothing before. -/
def fillTo (n : Nat) (buf : List α) : List (List α) → Bool × List α × List (List α)
  | [] => (decide (n ≤ buf.length), buf, [])
  | c :: cs =>
    if n ≤ buf.length then (true, buf, c :: cs)
    else if c = [] then (false, buf, cs)
    else fillTo n (buf ++ c) cs

/-- No read returns nothing before the end of the stream. -/
def Proper (cs : List (List α)) : Prop := ∀ c ∈ cs, c ≠ []

variable {cs : List (List α)}

theorem Proper.tail {c : List α} (h : Proper (c :: cs)) : Proper cs :=
  fun d hd => h d (List.mem_cons_of_mem _ hd)

/-- **Reading neither loses nor repeats anything.**  When enough is still to come, the loop ends
with that much in the buffer, and the buffer with the stream behind it is what it was. -/
theorem fillTo_spec {n : Nat} {buf : List α} (hcs : Proper cs)
    (hn : n ≤ (buf ++ cs.flatten).length) :
    ∃ buf' cs', fillTo n buf cs = (true, buf', cs') ∧ n ≤ buf'.length ∧
      buf' ++ cs'.flatten = buf ++ cs.flatten ∧ Proper cs' := by
  induction cs generalizing buf with
  | nil =>
    have hlen : n ≤ buf.length := by simpa using hn
    exact ⟨buf, [], by rw [fillTo, decide_eq_true hlen], hlen, rfl, hcs⟩
  | cons c cs ih =>
    by_cases hlen : n ≤ buf.length
    · exact ⟨buf, c :: cs, by rw [fillTo, if_pos hlen], hlen, rfl, hcs⟩
    · have hc : c ≠ [] := hcs c List.mem_cons_self
      have hmore : n ≤ ((buf ++ c) ++ cs.flatten).length := by
        rwa [List.flatten_cons, ← List.append_assoc] at hn
      obtain ⟨buf', cs', hfill, hlen', heq, hcs'⟩ := ih hcs.tail hmore
      refine ⟨buf', cs', ?_, hlen', ?_, hcs'⟩
      · rw [fillTo, if_neg hlen, if_neg hc, hfill]
      · rw [heq, List.flatten_cons, List.append_assoc]

/-- When less is still to come than is asked for, the loop reads all of it and says so. -/
theorem fillTo_short {n : Nat} {buf : List α} (hn : (buf ++ cs.flatten).length < n) :
    ∃ buf' cs', fillTo n buf cs = (false, buf', cs') := by
  induction cs generalizing buf with
  | nil =>
    rw [List.flatten_nil, List.append_nil] at hn
    exact ⟨buf, [], by rw [fillTo, decide_eq_false (Nat.not_le.mpr hn)]⟩
  | cons c cs ih =>
    have hlen : ¬ n ≤ buf.length := fun hle =>
      absurd (Nat.lt_of_le_of_lt (by rw [List.length_append]; omega) hn) (Nat.lt_irrefl n)
    rw [fillTo, if_neg hlen]
    split
    · exact ⟨buf, cs, rfl⟩
    · rw [List.flatten_cons, ← List.append_assoc] at hn
      exact ih hn

/-- Every stream comes in some chunks. -/
theorem exists_proper (xs : List α) : ∃ cs : List (List α), Proper cs ∧ cs.flatten = xs := by
  cases xs with
  | nil => exact ⟨[], fun c hc => absurd hc List.not_mem_nil, rfl⟩
  | cons x xs =>
    refine ⟨[x :: xs], fun c hc => ?_, by rw [List.flatten_singleton]⟩
    rw [List.mem_singleton.mp hc]
    exact List.cons_ne_nil x xs

/-- Nothing is left of a stream whose chunks together are empty. -/
theorem Proper.eq_nil (h : Proper cs) (hflat : cs.flatten = []) : cs = [] := by
  cases cs with
  | nil => rfl
  | cons c cs =>
    rw [List.flatten_cons, List.append_eq_nil_iff] at hflat
    exact absurd hflat.1 (h c List.mem_cons_self)

/-! ## Consumers -/

section
variable {σ β : Type} (feed : σ → List α → Option (σ × List β))

/-- Chunks fed one after the other, and all that is given out for them. -/
def feedAll : σ → List (List α) → Option (σ × List β)
  | s, [] => some (s, [])
  | s, c :: cs =>
    (feed s c).bind fun (s, out) => (feedAll s cs).map fun (s, more) => (s, out ++ more)

/-- A chunk is the same as its two parts. -/
def Cuts : Prop :=
  ∀ s xs ys, feed s (xs ++ ys) =
    (feed s xs).bind fun (s, out) => (feed s ys).map fun (s, more) => (s, out ++ more)

variable {feed}

/-- Behind a chunk there is nothing left to give out. -/
theorem Cuts.settled (h : Cuts feed) {s s' : σ} {xs : List α} {out : List β}
    (hfeed : feed s xs = some (s', out)) : feed s' [] = some (s', []) := by
  have hcut := h s xs []
  rw [List.append_nil, hfeed, Option.bind_some] at hcut
  obtain ⟨⟨t, more⟩, hmore, heq⟩ := Option.map_eq_some_iff.mp hcut.symm
  obtain ⟨rfl, hout⟩ := Prod.mk.inj heq
  obtain rfl := List.append_right_eq_self.mp hout
  exact hmore

/-- **The cuts of a stream do not matter** to a consumer that has nothing left to give out. -/
theorem feedAll_eq_feed (h : Cuts feed) {s : σ} (hs : feed s [] = some (s, []))
    (cs : List (List α)) : feedAll feed s cs = feed s cs.flatten := by
  induction cs generalizing s with
  | nil => exact hs.symm
  | cons c cs ih =>
    rw [feedAll, List.flatten_cons, h]
    cases hfeed : feed s c with
    | none => rfl
    | some r =>
      obtain ⟨t, out⟩ := r
      rw [Option.bind_some, Option.bind_some]
      dsimp only
      rw [ih (h.settled hfeed)]

end

end Chunks
