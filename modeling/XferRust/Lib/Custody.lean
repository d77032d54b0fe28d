/-! # Things that are held in one place at a time

Places hold lists of things, and a register lists the things that are held anywhere.  `Custody`
says that the places and the register agree: nothing is held twice, and exactly what is held is
registered.  Three moves keep it: a thing that is not registered enters at one place, things go
from one place to another, and what one place holds leaves it and the register together.
-/

variable {ι α : Type}

/-- The places hold different things, and the register is what they hold. -/
structure Custody (hold : ι → List α) (register : List α) : Prop where
  nodup : ∀ a, (hold a).Nodup
  apart : ∀ a b x, x ∈ hold a → x ∈ hold b → a = b
  registered : ∀ x, x ∈ register ↔ ∃ a, x ∈ hold a

namespace Custody

variable {hold hold' : ι → List α} {register register' : List α}

theorem empty : Custody (fun _ : ι => ([] : List α)) [] where
  nodup := fun _ => List.nodup_nil
  apart := by
    intro a b x hx
    cases hx
  registered := by
    intro x
    constructor
    · intro hx
      cases hx
    · rintro ⟨a, hx⟩
      cases hx

theorem mem_register (h : Custody hold register) {a : ι} {x : α} (hx : x ∈ hold a) :
    x ∈ register := (h.registered x).mpr ⟨a, hx⟩

/-- What is not registered is held nowhere. -/
theorem not_mem_hold (h : Custody hold register) {x : α} (hx : x ∉ register) (a : ι) :
    x ∉ hold a := fun ha => hx (h.mem_register ha)

/-- **Enter.**  A thing that is not registered comes to one place. -/
theorem enter (h : Custody hold register) {x : α} {a : ι} (hx : x ∉ register)
    (hnodup : (hold' a).Nodup) (ha : ∀ y, y ∈ hold' a ↔ y = x ∨ y ∈ hold a)
    (hother : ∀ b, b ≠ a → hold' b = hold b)
    (hreg : ∀ y, y ∈ register' ↔ y = x ∨ y ∈ register) : Custody hold' register' := by
  have hmem : ∀ b y, y ∈ hold' b ↔ (b = a ∧ y = x) ∨ y ∈ hold b := by
    intro b y
    by_cases hb : b = a
    · subst hb
      rw [ha]
      simp only [true_and]
    · rw [hother b hb]
      simp only [hb, false_and, false_or]
  refine ⟨fun b => ?_, fun b c y hb hc => ?_, fun y => ?_⟩
  · by_cases hb : b = a
    · exact hb ▸ hnodup
    · exact hother b hb ▸ h.nodup b
  · rcases (hmem b y).mp hb with ⟨rfl, rfl⟩ | hb
    · rcases (hmem c y).mp hc with ⟨rfl, -⟩ | hc
      · rfl
      · exact absurd hc (h.not_mem_hold hx c)
    · rcases (hmem c y).mp hc with ⟨rfl, rfl⟩ | hc
      · exact absurd hb (h.not_mem_hold hx b)
      · exact h.apart b c y hb hc
  · rw [hreg, h.registered]
    constructor
    · rintro (rfl | ⟨b, hb⟩)
      · exact ⟨a, (hmem a y).mpr (.inl ⟨rfl, rfl⟩)⟩
      · exact ⟨b, (hmem b y).mpr (.inr hb)⟩
    · rintro ⟨b, hb⟩
      rcases (hmem b y).mp hb with ⟨-, rfl⟩ | hb
      · exact .inl rfl
      · exact .inr ⟨b, hb⟩

/-- **Hand over.**  Things go from one place to another, and all is still held once. -/
theorem handOver (h : Custody hold register) {a b : ι} (hab : a ≠ b)
    (hperm : (hold' a ++ hold' b).Perm (hold a ++ hold b))
    (hother : ∀ c, c ≠ a → c ≠ b → hold' c = hold c) : Custody hold' register := by
  have hpair : (hold a ++ hold b).Nodup := by
    refine List.nodup_append.mpr ⟨h.nodup a, h.nodup b, ?_⟩
    rintro x hx y hy rfl
    exact hab (h.apart a b x hx hy)
  have hpair' := hperm.nodup_iff.mpr hpair
  obtain ⟨hna, hnb, hdisj⟩ := List.nodup_append.mp hpair'
  have hboth : ∀ y, (y ∈ hold' a ∨ y ∈ hold' b) ↔ (y ∈ hold a ∨ y ∈ hold b) := by
    intro y
    rw [← List.mem_append, ← List.mem_append]
    exact hperm.mem_iff
  -- where a thing is found now, it was found before, at the same place or at the other of the two
  have hback : ∀ c y, y ∈ hold' c → ∃ d, y ∈ hold d ∧ (c = d ∨ (c = a ∨ c = b) ∧ (d = a ∨ d = b)) := by
    intro c y hy
    by_cases hc : c = a ∨ c = b
    · have hy' : y ∈ hold' a ∨ y ∈ hold' b := by
        rcases hc with rfl | rfl
        · exact .inl hy
        · exact .inr hy
      rcases (hboth y).mp hy' with hya | hyb
      · exact ⟨a, hya, .inr ⟨hc, .inl rfl⟩⟩
      · exact ⟨b, hyb, .inr ⟨hc, .inr rfl⟩⟩
    · obtain ⟨hca, hcb⟩ := not_or.mp hc
      rw [hother c hca hcb] at hy
      exact ⟨c, hy, .inl rfl⟩
  have hpairOf : ∀ c y, (c = a ∨ c = b) → y ∈ hold' c → ∀ d, (d = a ∨ d = b) → y ∈ hold' d →
      c = d := by
    intro c y hc hyc d hd hyd
    rcases hc with rfl | rfl <;> rcases hd with rfl | rfl
    · rfl
    · exact absurd rfl (hdisj y hyc y hyd)
    · exact absurd rfl (hdisj y hyd y hyc)
    · rfl
  refine ⟨fun c => ?_, fun c d y hc hd => ?_, fun y => ?_⟩
  · by_cases hca : c = a
    · exact hca ▸ hna
    by_cases hcb : c = b
    · exact hcb ▸ hnb
    exact hother c hca hcb ▸ h.nodup c
  · obtain ⟨c', hc', hcc⟩ := hback c y hc
    obtain ⟨d', hd', hdd⟩ := hback d y hd
    have hsame := h.apart c' d' y hc' hd'
    subst hsame
    rcases hcc with rfl | ⟨hcp, hcp'⟩ <;> rcases hdd with rfl | ⟨hdp, hdp'⟩
    · rfl
    · exact hpairOf _ y hdp' hc d hdp hd
    · exact hpairOf c y hcp hc _ hcp' hd
    · exact hpairOf c y hcp hc d hdp hd
  · rw [h.registered]
    constructor
    · rintro ⟨c, hc⟩
      by_cases hcp : c = a ∨ c = b
      · have hy : y ∈ hold a ∨ y ∈ hold b := by
          rcases hcp with rfl | rfl
          · exact .inl hc
          · exact .inr hc
        rcases (hboth y).mpr hy with hya | hyb
        · exact ⟨a, hya⟩
        · exact ⟨b, hyb⟩
      · obtain ⟨hca, hcb⟩ := not_or.mp hcp
        exact ⟨c, hother c hca hcb ▸ hc⟩
    · rintro ⟨c, hc⟩
      obtain ⟨d, hd, -⟩ := hback c y hc
      exact ⟨d, hd⟩

/-- **Leave.**  What one place holds leaves it, and leaves the register. -/
theorem leave (h : Custody hold register) {a : ι} (ha : hold' a = [])
    (hother : ∀ b, b ≠ a → hold' b = hold b)
    (hreg : ∀ y, y ∈ register' ↔ y ∈ register ∧ y ∉ hold a) : Custody hold' register' := by
  have hmem : ∀ b y, y ∈ hold' b ↔ b ≠ a ∧ y ∈ hold b := by
    intro b y
    by_cases hb : b = a
    · subst hb
      rw [ha]
      simp only [List.not_mem_nil, ne_eq, not_true_eq_false, false_and]
    · rw [hother b hb]
      simp only [ne_eq, hb, not_false_eq_true, true_and]
  refine ⟨fun b => ?_, fun b c y hb hc => ?_, fun y => ?_⟩
  · by_cases hb : b = a
    · rw [hb, ha]
      exact List.nodup_nil
    · exact hother b hb ▸ h.nodup b
  · exact h.apart b c y ((hmem b y).mp hb).2 ((hmem c y).mp hc).2
  · rw [hreg, h.registered]
    constructor
    · rintro ⟨⟨b, hb⟩, hno⟩
      refine ⟨b, (hmem b y).mpr ⟨?_, hb⟩⟩
      rintro rfl
      exact hno hb
    · rintro ⟨b, hb⟩
      obtain ⟨hne, hb⟩ := (hmem b y).mp hb
      exact ⟨⟨b, hb⟩, fun hya => hne (h.apart b a y hb hya)⟩

end Custody
