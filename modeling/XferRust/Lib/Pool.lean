/-! # Pools of threads

A pool is a list of threads, each standing for the step that it takes next.  When a thread takes a
step it goes on as another one or it ends (`advance`).  A predicate says which threads are in a
section that one thread at a time is in: at most one, `busy`, is in its section now.
-/
namespace Pool

variable {α : Type}

/-- The thread in the place `i` goes on, or ends. -/
def advance (pool : List α) (i : Nat) : Option α → List α
  | some x => pool.set i x
  | none => pool.eraseIdx i

variable {pool : List α} {x : α} {i : Nat}

/-- The thread of a pool of at most one. -/
theorem sole (h : pool.length ≤ 1) (hx : pool[i]? = some x) : pool = [x] ∧ i = 0 := by
  match pool with
  | [] => cases hx
  | [y] =>
    cases i with
    | zero => exact ⟨congrArg (· :: []) (Option.some.inj hx), rfl⟩
    | succ i => cases hx
  | _ :: _ :: _ => exact absurd h (by simp)

/-- At most one thread of the pool is in its section: this one. -/
def Busy (p : α → Bool) (pool : List α) (busy : Option α) : Prop := pool.filter p = busy.toList

/-- What stands around the thread that takes a step. -/
theorem advance_split (h : pool[i]? = some x) (next : Option α) :
    ∃ before after, pool = before ++ x :: after ∧
      advance pool i next = before ++ next.toList ++ after := by
  induction pool generalizing i with
  | nil => cases h
  | cons y ys ih =>
    cases i with
    | zero =>
      obtain rfl := Option.some.inj h
      refine ⟨[], ys, rfl, ?_⟩
      cases next with
      | none => rfl
      | some z => rfl
    | succ i =>
      obtain ⟨before, after, hpool, hnext⟩ := ih h
      refine ⟨y :: before, after, by rw [hpool]; rfl, ?_⟩
      cases next with
      | none => exact congrArg (y :: ·) hnext
      | some z => exact congrArg (y :: ·) hnext

/-- A thread of the pool afterwards was there before, or has just taken its step. -/
theorem mem_advance {y : α} (h : pool[i]? = some x) {next : Option α}
    (hy : y ∈ advance pool i next) : y ∈ pool ∨ next = some y := by
  obtain ⟨before, after, hpool, hnext⟩ := advance_split h next
  rw [hnext, List.append_assoc, List.mem_append, List.mem_append, Option.mem_toList] at hy
  rw [hpool, List.mem_append, List.mem_cons]
  rcases hy with hy | hy | hy
  · exact .inl (.inl hy)
  · exact .inr hy
  · exact .inl (.inr (.inr hy))

variable {p : α → Bool}

/-- The thread that is in its section is the busy one, and what it becomes is. -/
theorem Busy.step {busy : Option α} (h : Busy p pool busy) (hx : pool[i]? = some x)
    (hp : p x = true) (next : Option α) :
    busy = some x ∧ Busy p (advance pool i next) (next.filter p) := by
  obtain ⟨before, after, hpool, hnext⟩ := advance_split hx next
  unfold Busy at h ⊢
  rw [hpool, List.filter_append, List.filter_cons_of_pos hp] at h
  cases busy with
  | none =>
    have hlen := congrArg List.length h
    rw [List.length_append, List.length_cons] at hlen
    cases hlen
  | some y =>
    have hlen := congrArg List.length h
    rw [List.length_append, List.length_cons, Option.toList_some, List.length_singleton] at hlen
    have hbefore : before.filter p = [] := List.length_eq_zero_iff.mp (by omega)
    have hafter : after.filter p = [] := List.length_eq_zero_iff.mp (by omega)
    rw [hbefore, hafter, List.nil_append] at h
    refine ⟨congrArg some (List.singleton_inj.mp h).symm, ?_⟩
    rw [hnext, List.filter_append, List.filter_append, hbefore, hafter, List.nil_append,
      List.append_nil]
    cases next with
    | none => rfl
    | some z =>
      by_cases hz : p z = true
      · rw [Option.filter_some_pos hz, Option.toList_some, List.filter_cons_of_pos hz,
          List.filter_nil]
      · rw [Option.filter_some_neg (Bool.eq_false_iff.mpr hz), Option.toList_some, List.filter_cons_of_neg hz,
          List.filter_nil]
        rfl

/-- A thread outside its section that stays outside. -/
theorem Busy.stay {busy : Option α} (h : Busy p pool busy) (hx : pool[i]? = some x)
    (hp : p x = false) {next : Option α} (hnext : ∀ y, next = some y → p y = false) :
    Busy p (advance pool i next) busy := by
  obtain ⟨before, after, hpool, hadvance⟩ := advance_split hx next
  unfold Busy at h ⊢
  rw [hpool, List.filter_append, List.filter_cons_of_neg (by rw [hp]; decide)] at h
  rw [hadvance, List.filter_append, List.filter_append]
  cases next with
  | none => rw [Option.toList_none, List.filter_nil, List.append_nil, h]
  | some z =>
    rw [Option.toList_some, List.filter_cons_of_neg (by rw [hnext z rfl]; decide), List.filter_nil,
      List.append_nil, h]

/-- A thread that enters its section while nobody is in it. -/
theorem Busy.enter (h : Busy p pool none) (hx : pool[i]? = some x) {y : α} (hy : p y = true) :
    Busy p (advance pool i (some y)) (some y) := by
  obtain ⟨before, after, hpool, hadvance⟩ := advance_split hx (some y)
  unfold Busy at h ⊢
  rw [Option.toList_none, List.filter_eq_nil_iff] at h
  rw [hpool] at h
  rw [hadvance, List.filter_append, List.filter_append, Option.toList_some,
    List.filter_cons_of_pos hy, List.filter_nil,
    List.filter_eq_nil_iff.mpr fun z hz => h z (List.mem_append_left _ hz),
    List.filter_eq_nil_iff.mpr fun z hz => h z (List.mem_append_right _ (List.mem_cons_of_mem _ hz))]
  rfl

/-- The busy thread is in the pool. -/
theorem Busy.mem (h : Busy p pool (some x)) : x ∈ pool ∧ p x = true := by
  have hx : x ∈ pool.filter p := by
    rw [h]
    exact List.mem_singleton_self x
  exact List.mem_filter.mp hx

theorem Busy.none_iff : Busy p pool none ↔ ∀ x ∈ pool, p x = false := by
  unfold Busy
  rw [Option.toList_none, List.filter_eq_nil_iff]
  constructor
  · intro h x hx
    exact Bool.eq_false_iff.mpr (h x hx)
  · intro h x hx
    rw [h x hx]
    decide

end Pool
