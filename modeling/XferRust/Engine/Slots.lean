import Mathlib.Data.Finset.Card
import XferRust.Lib.AssocMap
import XferRust.Engine.Steps

/-! # Slots for downloads

`fill_slots` starts tasks from the queue while there are free slots.  A task that only seeds is not
to take one; but the loop also stops at the number of all active tasks, seeding or not.
`filled_fillFrom_iff` says when it fills the slots all the same.  The statuses are those that the
loop reads: it keeps the lock of `inner`, and only that lock's holder changes the set of active
tasks and the queue.
-/
namespace XferRust.Engine

/-! ## The scheduler -/

/-- The fields of `inner` that `fill_slots` uses, and the status of each task. -/
structure Slots (γ : Type) where
  tasks : AList fun _ : γ => Status
  active : Finset γ
  queue : List γ
  maxConcurrent : Nat

section
variable {γ : Type} [DecidableEq γ]

/-- The task takes a slot unless it seeds. -/
def Slots.Downloads (s : Slots γ) (gid : γ) : Prop := ∃ st ∈ s.tasks.lookup gid, st ≠ .seeding

instance decidableDownloads (s : Slots γ) (gid : γ) : Decidable (s.Downloads gid) :=
  inferInstanceAs (Decidable (∃ st ∈ s.tasks.lookup gid, st ≠ .seeding))

/-- The number of active tasks that do not seed. -/
def Slots.downloading (s : Slots γ) : Nat := (s.active.filter s.Downloads).card

def Slots.start (s : Slots γ) (gid : γ) : Slots γ :=
  { s with active := insert gid s.active, tasks := s.tasks.insert gid .active }

/-- The loop of `fill_slots`, with the queue that is left; and the tasks that it starts, each with
the number of tasks that were downloading by then. -/
def fillFrom : Slots γ → List γ → Slots γ × List (γ × Nat)
  | s, [] => ({ s with queue := [] }, [])
  | s, gid :: rest =>
    if s.active.card < s.maxConcurrent then
      if s.maxConcurrent ≤ s.downloading then ({ s with queue := gid :: rest }, [])
      else
        match s.tasks.lookup gid with
        | none => fillFrom s rest
        | some st =>
          -- what is left in the queue of a task that was paused or removed is passed over
          if st ≠ .waiting then fillFrom s rest
          else
            let r := fillFrom (s.start gid) rest
            (r.1, (gid, s.downloading) :: r.2)
    else ({ s with queue := gid :: rest }, [])

/-- `fill_slots` -/
def fillSlots (s : Slots γ) : Slots γ × List (γ × Nat) := fillFrom s s.queue

def Slots.Waits (s : Slots γ) (gid : γ) : Prop := s.tasks.lookup gid = some .waiting

instance decidableWaits (s : Slots γ) (gid : γ) : Decidable (s.Waits gid) :=
  inferInstanceAs (Decidable (_ = _))

/-- **Filled**: no task in the queue waits, or all slots are taken by downloads. -/
def Slots.Filled (s : Slots γ) : Prop :=
  (∀ gid ∈ s.queue, ¬ s.Waits gid) ∨ s.maxConcurrent ≤ s.downloading

/-- The number of waiting tasks in a part of the queue that are not active yet. -/
def Slots.fresh (s : Slots γ) (l : List γ) : Nat :=
  ((l.filter fun gid => s.Waits gid ∧ gid ∉ s.active).toFinset).card

/-- Each waiting task finds room beside all active tasks and those that come before it. -/
def Slots.Roomy (s : Slots γ) (l : List γ) : Prop :=
  ∀ pre gid post, l = pre ++ gid :: post → gid ∉ pre → s.Waits gid →
    s.active.card + s.fresh pre < s.maxConcurrent

/-! ### A start -/

variable {gid : γ} (s : Slots γ)

theorem Slots.downloads_start (h : s.Waits gid) (g : γ) :
    (s.start gid).Downloads g ↔ s.Downloads g := by
  unfold Slots.Downloads Slots.start
  rw [AList.lookup_insert_eq]
  by_cases hg : g = gid
  · rw [if_pos hg, hg, h]
    simp
  · rw [if_neg hg]

theorem Slots.waits_start (gid g : γ) : (s.start gid).Waits g ↔ s.Waits g ∧ g ≠ gid := by
  unfold Slots.Waits Slots.start
  rw [AList.lookup_insert_eq]
  by_cases hg : g = gid
  · simp [hg]
  · simp [hg]

/-- A start takes as many slots of downloads as of all tasks. -/
theorem Slots.downloading_start (h : s.Waits gid) :
    (s.start gid).downloading + s.active.card = s.downloading + (s.start gid).active.card := by
  have hdown : s.Downloads gid := ⟨.waiting, h, by decide⟩
  have hfilter : (s.start gid).active.filter (s.start gid).Downloads =
      insert gid (s.active.filter s.Downloads) := by
    rw [show (s.start gid).active = insert gid s.active from rfl, Finset.filter_insert,
      if_pos ((s.downloads_start h gid).mpr hdown)]
    congr 1
    exact Finset.filter_congr fun g _ => s.downloads_start h g
  rw [Slots.downloading, Slots.downloading, hfilter,
    show (s.start gid).active = insert gid s.active from rfl]
  by_cases hmem : gid ∈ s.active
  · rw [Finset.insert_eq_self.mpr hmem,
      Finset.insert_eq_self.mpr (Finset.mem_filter.mpr ⟨hmem, hdown⟩)]
  · rw [Finset.card_insert_of_notMem hmem,
      Finset.card_insert_of_notMem fun hin => hmem (Finset.mem_filter.mp hin).1]
    omega

/-- What waits before a task, when a task before it has been started. -/
theorem Slots.fresh_cons (h : s.Waits gid) (l : List γ) :
    s.active.card + s.fresh (gid :: l) = (s.start gid).active.card + (s.start gid).fresh l := by
  have hmem : ∀ g, (s.start gid).Waits g ∧ g ∉ (s.start gid).active ↔
      (s.Waits g ∧ g ∉ s.active) ∧ g ≠ gid := by
    intro g
    rw [s.waits_start, show (s.start gid).active = insert gid s.active from rfl,
      Finset.mem_insert, not_or]
    constructor
    · rintro ⟨⟨hw, hne⟩, -, hnot⟩
      exact ⟨⟨hw, hnot⟩, hne⟩
    · rintro ⟨⟨hw, hnot⟩, hne⟩
      exact ⟨⟨hw, hne⟩, hne, hnot⟩
  have hset : ((l.filter fun g => (s.start gid).Waits g ∧ g ∉ (s.start gid).active).toFinset) =
      ((gid :: l).filter fun g => s.Waits g ∧ g ∉ s.active).toFinset.erase gid := by
    ext g
    simp only [List.mem_toFinset, List.mem_filter, Finset.mem_erase, List.mem_cons, hmem,
      decide_eq_true_eq]
    constructor
    · rintro ⟨hl, hp, hne⟩
      exact ⟨hne, .inr hl, hp⟩
    · rintro ⟨hne, hl, hp⟩
      exact ⟨hl.resolve_left hne, hp, hne⟩
  rw [Slots.fresh, Slots.fresh, hset,
    show (s.start gid).active = insert gid s.active from rfl]
  by_cases hin : gid ∈ s.active
  · rw [Finset.insert_eq_self.mpr hin, Finset.erase_eq_of_notMem]
    simp [hin]
  · rw [Finset.card_insert_of_notMem hin, Finset.card_erase_of_mem]
    · have hpos : 0 < ((gid :: l).filter fun g => s.Waits g ∧ g ∉ s.active).toFinset.card :=
        Finset.card_pos.mpr ⟨gid, by simp [h, hin]⟩
      omega
    · simp [h, hin]

theorem Slots.roomy_start (h : s.Waits gid) (rest : List γ) :
    s.Roomy (gid :: rest) ↔ s.active.card < s.maxConcurrent ∧ (s.start gid).Roomy rest := by
  constructor
  · intro hroomy
    refine ⟨?_, fun pre g post heq hnot hwaits => ?_⟩
    · have hfirst := hroomy [] gid rest rfl List.not_mem_nil h
      exact hfirst
    · obtain ⟨hw, hne⟩ := (s.waits_start gid g).mp hwaits
      have hnext := hroomy (gid :: pre) g post (by rw [heq]; rfl)
        (fun hmem => (List.mem_cons.mp hmem).elim hne hnot) hw
      rw [s.fresh_cons h] at hnext
      exact hnext
  · rintro ⟨hcard, hroomy⟩ pre g post heq hnot hwaits
    cases pre with
    | nil => exact hcard
    | cons g₀ pre =>
      obtain ⟨rfl, hrest⟩ := List.cons.inj heq
      rw [s.fresh_cons h]
      refine hroomy pre g post hrest (fun hmem => hnot (List.mem_cons_of_mem _ hmem)) ?_
      exact (s.waits_start _ g).mpr ⟨hwaits, fun hg => hnot (hg ▸ List.mem_cons_self)⟩

theorem Slots.roomy_skip (h : ¬ s.Waits gid) (rest : List γ) :
    s.Roomy (gid :: rest) ↔ s.Roomy rest := by
  have hfresh : ∀ pre, s.fresh (gid :: pre) = s.fresh pre := by
    intro pre
    rw [Slots.fresh, List.filter_cons_of_neg (by simp [h])]
    rfl
  constructor
  · intro hroomy pre g post heq hnot hwaits
    have hne : g ≠ gid := fun hg => h (hg ▸ hwaits)
    have hnext := hroomy (gid :: pre) g post (by rw [heq]; rfl)
      (fun hmem => (List.mem_cons.mp hmem).elim hne hnot) hwaits
    rwa [hfresh] at hnext
  · intro hroomy pre g post heq hnot hwaits
    cases pre with
    | nil =>
      obtain ⟨rfl, -⟩ := List.cons.inj heq
      exact absurd hwaits h
    | cons g₀ pre =>
      obtain ⟨rfl, hrest⟩ := List.cons.inj heq
      rw [hfresh]
      exact hroomy pre g post hrest (fun hmem => hnot (List.mem_cons_of_mem _ hmem)) hwaits

/-! ### The loop -/

theorem Slots.downloading_le : s.downloading ≤ s.active.card :=
  Finset.card_filter_le _ _

/-- Each task waits until the loop starts it, and is not started beside as many downloads as there
may be. -/
theorem of_mem_fillFrom (l : List γ) :
    ∀ p ∈ (fillFrom s l).2, s.Waits p.1 ∧ p.2 < s.maxConcurrent := by
  induction l generalizing s with
  | nil =>
    intro p hp
    cases hp
  | cons gid rest ih =>
    unfold fillFrom
    split
    · split
      · intro p hp
        cases hp
      · rename_i hroom
        split
        · exact ih s
        · rename_i st hst
          split
          · exact ih s
          · rename_i heq
            have hwaits : s.Waits gid := by rw [Slots.Waits, hst, not_not.mp heq]
            intro p hp
            rcases List.mem_cons.mp hp with rfl | hp
            · exact ⟨hwaits, Nat.lt_of_not_le hroom⟩
            · obtain ⟨hw, hlt⟩ := ih (s.start gid) p hp
              exact ⟨((s.waits_start gid p.1).mp hw).1, hlt⟩
    · intro p hp
      cases hp

/-- No task is started twice. -/
theorem nodup_fillFrom (l : List γ) : ((fillFrom s l).2.map Prod.fst).Nodup := by
  induction l generalizing s with
  | nil => exact List.nodup_nil
  | cons gid rest ih =>
    unfold fillFrom
    split
    · split
      · exact List.nodup_nil
      · split
        · exact ih s
        · split
          · exact ih s
          · refine List.nodup_cons.mpr ⟨fun hmem => ?_, ih (s.start gid)⟩
            obtain ⟨p, hp, rfl⟩ := List.mem_map.mp hmem
            exact ((s.waits_start p.1 p.1).mp (of_mem_fillFrom _ rest p hp).1).2 rfl
    · exact List.nodup_nil

/-- The loop changes the status of what it starts, and of nothing else. -/
theorem lookup_fillFrom (l : List γ) (g : γ) :
    (fillFrom s l).1.tasks.lookup g =
      if g ∈ (fillFrom s l).2.map Prod.fst then some .active else s.tasks.lookup g := by
  induction l generalizing s with
  | nil => rfl
  | cons gid rest ih =>
    unfold fillFrom
    split
    · split
      · rfl
      · split
        · exact ih s
        · split
          · exact ih s
          · show (fillFrom (s.start gid) rest).1.tasks.lookup g = _
            rw [ih (s.start gid), List.map_cons]
            have hstart : (s.start gid).tasks.lookup g =
                if g = gid then some .active else s.tasks.lookup g :=
              AList.lookup_insert_eq gid g Status.active s.tasks
            rw [hstart]
            by_cases hg : g = gid
            · rw [if_pos hg, if_pos (List.mem_cons.mpr (.inl hg)), ite_self]
            · rw [if_neg hg]
              simp only [List.mem_cons, hg, false_or]
    · rfl

/-- **The loop**, exactly: the slots are filled if each waiting task finds room beside all active
ones, or if those that seed are not in the way. -/
theorem filled_fillFrom_iff (l : List γ) :
    (fillFrom s l).1.Filled ↔
      s.Roomy l ∨ s.maxConcurrent ≤ s.downloading + (s.maxConcurrent - s.active.card) := by
  induction l generalizing s with
  | nil =>
    refine iff_of_true (.inl fun gid hgid => by cases hgid) (.inl fun pre gid post heq => ?_)
    exact absurd heq.symm (by simp)
  | cons gid rest ih =>
    unfold fillFrom
    have hle := s.downloading_le
    split
    · rename_i hcard
      rw [if_neg (by omega)]
      split
      · rename_i hnone
        have hnot : ¬ s.Waits gid := fun hw => by
          rw [Slots.Waits, hnone] at hw
          cases hw
        rw [ih s, s.roomy_skip hnot]
      · rename_i st hst
        split
        · rename_i hne
          have hnot : ¬ s.Waits gid := fun hw => hne (Option.some.inj (hst.symm.trans hw))
          rw [ih s, s.roomy_skip hnot]
        · rename_i heq
          have hwaits : s.Waits gid := by rw [Slots.Waits, hst, not_not.mp heq]
          have hstart := s.downloading_start hwaits
          have hgrow : s.active.card ≤ (s.start gid).active.card :=
            Finset.card_le_card (Finset.subset_insert gid s.active)
          have hgrow' : (s.start gid).active.card ≤ s.active.card + 1 :=
            Finset.card_insert_le gid s.active
          show (fillFrom (s.start gid) rest).1.Filled ↔ _
          rw [ih (s.start gid), s.roomy_start hwaits, show (s.start gid).maxConcurrent =
            s.maxConcurrent from rfl, and_iff_right hcard]
          refine or_congr_right ?_
          omega
    · rename_i hfull
      have hsame : s.maxConcurrent ≤ s.downloading + (s.maxConcurrent - s.active.card) ↔
          s.maxConcurrent ≤ s.downloading := by omega
      rw [hsame]
      refine or_congr_left ?_
      constructor
      · intro hnone pre g post heq _ hwaits
        exact absurd hwaits (hnone g (heq ▸ List.mem_append_right pre List.mem_cons_self))
      · intro hroomy g hg hwaits
        obtain ⟨pre, post, heq, hnot⟩ := List.eq_append_cons_of_mem hg
        exact hfull (Nat.lt_of_le_of_lt (Nat.le_add_right _ _) (hroomy pre g post heq hnot hwaits))

end
end XferRust.Engine
