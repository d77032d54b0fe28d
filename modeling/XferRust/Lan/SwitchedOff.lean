import Mathlib.Data.List.DropRight
import XferRust.Lan.Controller

/-! # Switched off means off

When all calls have returned, a service runs only if the stored configuration has the switch on, it
is the one in the controller's slot, and it has the name and the directory that the configuration
gives.  This holds of runs in which `ensure_started`, when it has the lock and finds no service,
finds the switch on, and a running service can be given its settings: `off_of_clear_run`.  A call
that waits for the lock while the switch is turned off starts a service all the same.
-/
namespace XferRust.Lan.Controller
open StepRun
open Playlist (trim isWhitespace isControl)

/-! ## Names -/

theorem dropWhile_rdropWhile {α : Type} (p : α → Bool) (l : List α) :
    ((l.dropWhile p).rdropWhile p).dropWhile p = (l.dropWhile p).rdropWhile p := by
  rw [List.dropWhile_eq_self_iff]
  intro hl hp
  have hprefix := List.rdropWhile_prefix (p := p) (l := l.dropWhile p)
  have hlen : 0 < (l.dropWhile p).length := Nat.lt_of_lt_of_le hl hprefix.length_le
  have hhead := List.dropWhile_get_zero_not p l hlen
  refine hhead ?_
  have hget := hprefix.getElem hl
  simp only [List.get_eq_getElem] at hp ⊢
  rwa [← hget]

theorem trim_eq (l : List Char) : trim l = (l.dropWhile isWhitespace).rdropWhile isWhitespace := rfl

theorem trim_trim (l : List Char) : trim (trim l) = trim l := by
  rw [trim_eq l, trim_eq, dropWhile_rdropWhile, List.rdropWhile_idempotent]

theorem trim_sublist (l : List Char) : (trim l).Sublist l :=
  (List.rdropWhile_prefix (p := isWhitespace) (l := l.dropWhile isWhitespace)).sublist.trans
    (List.dropWhile_suffix _).sublist

/-- A name that has been clamped stays what it is. -/
theorem clampName_clampName (name : List Char) :
    clampName (trim (clampName name)) = clampName name ∧ trim (clampName name) ≠ [] := by
  unfold clampName
  dsimp only
  split
  · exact ⟨by decide, by decide⟩
  · rename_i hne
    generalize hcleaned : trim ((name.filter fun c => !isControl c).take 64) = cleaned at hne ⊢
    have hsub := trim_sublist ((name.filter fun c => !isControl c).take 64)
    rw [hcleaned] at hsub
    have htrim : trim cleaned = cleaned := by rw [← hcleaned, trim_trim]
    have hfilter : (cleaned.filter fun c => !isControl c) = cleaned :=
      List.filter_eq_self.mpr fun c hc =>
        (List.mem_filter.mp (List.mem_of_mem_take (hsub.mem hc))).2
    have hlen : cleaned.length ≤ 64 := Nat.le_trans hsub.length_le (List.length_take_le _ _)
    rw [htrim, hfilter, List.take_of_length_le hlen, htrim, if_neg hne]
    exact ⟨rfl, hne⟩

/-- Writing the name to the identity file does not change it. -/
theorem peekName_written (hostName identity wanted : List Char) (wrote : Prop) [Decidable wrote] :
    peekName hostName (if wrote then peekName hostName identity wanted else identity) wanted =
      peekName hostName identity wanted := by
  by_cases hwrote : wrote
  · rw [if_pos hwrote]
    by_cases hwanted : trim wanted ≠ []
    · unfold peekName
      rw [if_pos hwanted, if_pos hwanted]
    · obtain ⟨name, hname⟩ : ∃ name, peekName hostName identity wanted = clampName name := by
        unfold peekName
        rw [if_neg hwanted]
        split
        · exact ⟨_, rfl⟩
        · exact ⟨_, rfl⟩
      rw [hname]
      obtain ⟨hclamp, hne⟩ := clampName_clampName name
      rw [peekName, if_neg hwanted, if_neg hne, hclamp]
  · rw [if_neg hwrote]

/-! ## What holds -/

/-- **Off means off**: when all calls have returned, a running service is the one in the slot, the
switch is on, and the service has the name and the directory of the stored configuration. -/
def State.Off (s : State) : Prop :=
  (∀ phase ∈ s.calls, phase = .returned) →
    ∀ (k : Nat) (sv : Service), s.services[k]? = some sv → sv.running = true →
      s.service = some k ∧ s.config.enabled = true ∧ sv.name = s.effectiveName s.config ∧
        sv.recvDir = s.effectiveDir s.config

/-- What each step keeps. -/
structure State.Sound (s : State) : Prop where
  /-- A service that starts is the only one, with the stored configuration. -/
  starting : ∀ (i : Nat) cfg, s.calls[i]? = some (.starting cfg) →
    s.opLock = some i ∧ cfg = s.config ∧ s.config.enabled = true ∧ s.service = none
  stopping : ∀ (i k : Nat), s.calls[i]? = some (.stopping k) →
    s.service ≠ some k ∧ k < s.services.length
  running : ∀ (k : Nat) (sv : Service), s.services[k]? = some sv → sv.running = true →
    s.service = some k ∨ ∃ i : Nat, s.calls[i]? = some (.stopping k)
  service : ∀ k, s.service = some k → ∃ sv, s.services[k]? = some sv ∧
    s.config.enabled = true ∧ sv.name = s.effectiveName s.config ∧
      sv.recvDir = s.effectiveDir s.config

variable {s : State}

theorem State.Sound.off (h : s.Sound) : s.Off := by
  intro hreturned k sv hk hrun
  have hslot : s.service = some k := by
    rcases h.running k sv hk hrun with hslot | ⟨i, hi⟩
    · exact hslot
    · have := hreturned _ (List.mem_of_getElem? hi)
      cases this
  obtain ⟨sv', hsv', hrest⟩ := h.service k hslot
  obtain rfl := Option.some.inj (hk.symm.trans hsv')
  exact ⟨hslot, hrest⟩

theorem State.Sound.not_starting (h : s.Sound) (hlock : s.opLock = none) (i : Nat)
    (cfg : UserConfig) : s.calls[i]? ≠ some (.starting cfg) := fun hi => by
  have := (h.starting i cfg hi).1
  rw [hlock] at this
  cases this

variable {i : Nat}
variable {phase : Phase} {o : Outcome}

/-- One call moves, and may take or give back the lock. -/
theorem sound_of_set {lock : Option Nat} (hi : i < s.calls.length)
    (hothers : ∀ (j : Nat) cfg, j ≠ i → s.calls[j]? = some (.starting cfg) →
      lock = some j ∧ cfg = s.config ∧ s.config.enabled = true ∧ s.service = none)
    (hstart : ∀ cfg, phase = .starting cfg →
      lock = some i ∧ cfg = s.config ∧ s.config.enabled = true ∧ s.service = none)
    (hstopping : ∀ (j k : Nat), j ≠ i → s.calls[j]? = some (.stopping k) →
      s.service ≠ some k ∧ k < s.services.length)
    (hstop : ∀ k, phase = .stopping k → s.service ≠ some k ∧ k < s.services.length)
    (hrunning : ∀ (k : Nat) (sv : Service), s.services[k]? = some sv → sv.running = true →
      s.service = some k ∨ (∃ j : Nat, j ≠ i ∧ s.calls[j]? = some (.stopping k)) ∨
        phase = .stopping k)
    (hservice : ∀ k, s.service = some k → ∃ sv, s.services[k]? = some sv ∧
      s.config.enabled = true ∧ sv.name = s.effectiveName s.config ∧
        sv.recvDir = s.effectiveDir s.config) :
    ({ s with opLock := lock, calls := s.calls.set i phase } : State).Sound := by
  have hget : ∀ (j : Nat) q, (s.calls.set i phase)[j]? = some q →
      (j = i ∧ phase = q) ∨ (j ≠ i ∧ s.calls[j]? = some q) := by
    intro j q hj
    by_cases hne : j = i
    · rw [hne, List.getElem?_set_self hi] at hj
      exact .inl ⟨hne, Option.some.inj hj⟩
    · rw [List.getElem?_set_ne (Ne.symm hne)] at hj
      exact .inr ⟨hne, hj⟩
  refine ⟨fun j cfg hj => ?_, fun j k hj => ?_, fun k sv hk hrun => ?_, hservice⟩
  · rcases hget j _ hj with ⟨rfl, hphase⟩ | ⟨hne, hj⟩
    · exact hstart cfg hphase
    · exact hothers j cfg hne hj
  · rcases hget j _ hj with ⟨rfl, hphase⟩ | ⟨hne, hj⟩
    · exact hstop k hphase
    · exact hstopping j k hne hj
  · rcases hrunning k sv hk hrun with hslot | ⟨j, hne, hj⟩ | hphase
    · exact .inl hslot
    · exact .inr ⟨j, (List.getElem?_set_ne (Ne.symm hne)).trans hj⟩
    · exact .inr ⟨i, (List.getElem?_set_self hi).trans (congrArg some hphase)⟩

/-! ## Runs -/

/-- `ensure_started` that has the lock and finds no service finds the switch on; and a running
service can be given its settings: its directory can be set or is the right one, and where the
name is cleared the identity file has the name of the service. -/
def Phase.Clear (s : State) (o : Outcome) : Phase → Prop
  | .ensureWaits => s.service = none → s.config.enabled = true
  | .patchWaits patch =>
    ∀ next ∈ s.config.patched patch o.made, o.saved = true → next.enabled = true →
      ∀ k ∈ s.service, ∀ sv ∈ s.services[k]?,
        (next.deviceName = [] → sv.name = s.effectiveName next) ∧
          (o.dirSet = true ∨ sv.recvDir = s.effectiveDir next)
  | _ => True

/-- A call that gets the lock is clear. -/
def Clear (s : State) : Event → Prop
  | .acquire i o => ∀ phase ∈ s.calls[i]?, phase.Clear s o
  | _ => True

/-- A call without the lock goes on or returns: the state stays sound where nothing else changes. -/
theorem State.Sound.returned (h : s.Sound) (hlock : s.opLock = none) (hi : s.calls[i]? = some phase)
    (hphase : ∀ k, phase ≠ .stopping k) : (s.returned i).Sound := by
  refine sound_of_set (List.getElem?_eq_some_iff.mp hi).1
    (fun j cfg _ hj => absurd hj (h.not_starting hlock j cfg))
    (fun cfg hcfg => by cases hcfg) (fun j k _ hj => h.stopping j k hj)
    (fun k hk => by cases hk) (fun k sv hk hrun => ?_) h.service
  rcases h.running k sv hk hrun with hslot | ⟨j, hj⟩
  · exact .inl hslot
  · refine .inr (.inl ⟨j, fun hne => ?_, hj⟩)
    rw [hne, hi] at hj
    exact hphase k (Option.some.inj hj)

variable {k : Nat}

/-- A service that has been given its settings. -/
theorem getElem?_adjust {next : UserConfig} {j : Nat} {sv : Service}
    (h : (s.adjust k next o).services[j]? = some sv) :
    ∃ old, s.services[j]? = some old ∧ sv.running = old.running ∧
      (j = k → sv = old.adjusted next (s.effectiveName next) (s.effectiveDir next) o.dirSet) := by
  change (s.services.modify k _)[j]? = some sv at h
  rw [List.getElem?_modify] at h
  obtain ⟨old, hold, rfl⟩ := Option.map_eq_some_iff.mp h
  refine ⟨old, hold, ?_, fun hjk => ?_⟩
  · split
    · rfl
    · rfl
  · rw [if_pos hjk.symm]

/-- **The running service is given its settings**, where that succeeds. -/
theorem State.Sound.adjust (h : s.Sound) (hlock : s.opLock = none) (hslot : s.service = some k)
    {next : UserConfig} (hon : next.enabled = true)
    (hclear : ∀ sv ∈ s.services[k]?, (next.deviceName = [] → sv.name = s.effectiveName next) ∧
      (o.dirSet = true ∨ sv.recvDir = s.effectiveDir next)) :
    (({ s with config := next } : State).adjust k next o).Sound := by
  refine ⟨fun i cfg hi => absurd hi (h.not_starting hlock i cfg), fun i j hi => ?_,
    fun j sv hj hrun => ?_, fun j hj => ?_⟩
  · obtain ⟨hne, hlt⟩ := h.stopping i j hi
    refine ⟨hne, ?_⟩
    show j < (s.services.modify k _).length
    rwa [List.length_modify]
  · obtain ⟨old, hold, hsame, -⟩ := getElem?_adjust (s := { s with config := next }) hj
    exact h.running j old hold (hsame ▸ hrun)
  · obtain rfl : k = j := Option.some.inj (hslot.symm.trans hj)
    obtain ⟨sv, hsv, -, -⟩ := h.service k hslot
    obtain ⟨hname, hdir⟩ := hclear sv hsv
    refine ⟨sv.adjusted next (s.effectiveName next) (s.effectiveDir next) o.dirSet, ?_, hon, ?_, ?_⟩
    · show (s.services.modify k _)[k]? = _
      rw [List.getElem?_modify_eq, hsv]
      rfl
    · -- the identity file has the new name only if it is written
      show (if next.deviceName = [] then sv.name else s.effectiveName next) =
        peekName s.hostName (if next.deviceName ≠ [] ∧ o.wrote then s.effectiveName next
          else s.identity) next.deviceName
      rw [State.effectiveName, peekName_written]
      split
      · rename_i hempty
        exact hname hempty
      · rfl
    · show (if o.dirSet then s.effectiveDir next else sv.recvDir) = s.effectiveDir next
      split
      · rfl
      · rename_i hnot
        exact hdir.resolve_left hnot

theorem configured_none (h : s.service = none) (i : Nat) (next : UserConfig) (o : Outcome) :
    s.configured i next o =
      if next.enabled then s.awaits i (.starting next) else s.returned i := by
  rw [State.configured, h]

theorem configured_some (h : s.service = some k) (i : Nat) (next : UserConfig) (o : Outcome) :
    s.configured i next o =
      if next.enabled then (s.adjust k next o).returned i
      else { s with service := none }.awaits i (.stopping k) := by
  rw [State.configured, h]

/-- What `set_config` with the lock keeps. -/
theorem State.Sound.setConfig (h : s.Sound) (hlock : s.opLock = none) {patch : ConfigPatch}
    (hi : s.calls[i]? = some (.patchWaits patch))
    (hclear : ∀ next ∈ s.config.patched patch o.made, o.saved = true → next.enabled = true →
      ∀ k ∈ s.service, ∀ sv ∈ s.services[k]?,
        (next.deviceName = [] → sv.name = s.effectiveName next) ∧
          (o.dirSet = true ∨ sv.recvDir = s.effectiveDir next)) :
    (s.setConfig i patch o).Sound := by
  have hlt := (List.getElem?_eq_some_iff.mp hi).1
  have hnot : ∀ k, Phase.patchWaits patch ≠ .stopping k := fun k hk => by cases hk
  -- what is being stopped is so by another call
  have hother : ∀ (j k : Nat), s.calls[j]? = some (.stopping k) → j ≠ i := fun j k hj hne => by
    rw [hne, hi] at hj
    cases hj
  rw [State.setConfig]
  cases hpatched : s.config.patched patch o.made with
  | none => exact h.returned hlock hi hnot
  | some next =>
    dsimp only
    split
    · rename_i hsaved
      rcases Option.eq_none_or_eq_some s.service with hslot | ⟨k, hslot⟩
      · have hrunning : ∀ (k : Nat) (sv : Service), s.services[k]? = some sv →
            sv.running = true → s.service = some k ∨
              (∃ j : Nat, j ≠ i ∧ s.calls[j]? = some (.stopping k)) := fun k sv hk hrun =>
          (h.running k sv hk hrun).imp id fun ⟨j, hj⟩ => ⟨j, hother j k hj, hj⟩
        have hservice : ∀ k, s.service ≠ some k := fun k hk => by
          rw [hslot] at hk
          cases hk
        rw [configured_none (s := { s with config := next }) hslot]
        split
        · rename_i hon
          refine sound_of_set hlt (fun j cfg _ hj => absurd hj (h.not_starting hlock j cfg))
            (fun cfg hcfg => ?_) (fun j k _ hj => h.stopping j k hj) (fun k hk => by cases hk)
            (fun k sv hk hrun => (hrunning k sv hk hrun).imp id .inl)
            fun k hk => absurd hk (hservice k)
          obtain rfl := Phase.starting.inj hcfg
          exact ⟨rfl, rfl, hon, hslot⟩
        · exact sound_of_set hlt (fun j cfg _ hj => absurd hj (h.not_starting hlock j cfg))
            (fun cfg hcfg => by cases hcfg) (fun j k _ hj => h.stopping j k hj)
            (fun k hk => by cases hk) (fun k sv hk hrun => (hrunning k sv hk hrun).imp id .inl)
            fun k hk => absurd hk (hservice k)
      · rw [configured_some (s := { s with config := next }) hslot]
        split
        · rename_i hon
          exact (h.adjust hlock hslot hon (hclear next hpatched hsaved hon k hslot)).returned hlock
            hi hnot
        · refine sound_of_set hlt (fun j cfg _ hj => absurd hj (h.not_starting hlock j cfg))
            (fun cfg hcfg => by cases hcfg) (fun j k' _ hj => ⟨nofun,
              (h.stopping j k' hj).2⟩) (fun k' hk' => ?_) (fun k' sv hk' hrun => ?_)
            fun k' hk' => by cases hk'
          · obtain rfl := Phase.stopping.inj hk'
            obtain ⟨sv, hsv, -⟩ := h.service k hslot
            exact ⟨nofun, (List.getElem?_eq_some_iff.mp hsv).1⟩
          · rcases h.running k' sv hk' hrun with hk | ⟨j, hj⟩
            · obtain rfl := Option.some.inj (hslot.symm.trans hk)
              exact .inr (.inr rfl)
            · exact .inr (.inl ⟨j, hother j k' hj, hj⟩)
    · exact h.returned hlock hi hnot

/-- A service that has started has the settings of the stored configuration. -/
theorem State.Sound.started (h : s.Sound) {cfg : UserConfig}
    (hi : s.calls[i]? = some (.starting cfg)) (ok wrote : Bool) :
    ((s.startService cfg ok wrote).returned i).Sound := by
  obtain ⟨hlock, rfl, hon, hnone⟩ := h.starting i cfg hi
  have hlt := (List.getElem?_eq_some_iff.mp hi).1
  have hothers : ∀ (j : Nat) cfg, j ≠ i → s.calls[j]? ≠ some (.starting cfg) :=
    fun j cfg hne hj => hne (Option.some.inj ((h.starting j cfg hj).1.symm.trans hlock))
  have hstopping : ∀ (k : Nat) (sv : Service), s.services[k]? = some sv → sv.running = true →
      ∃ j : Nat, j ≠ i ∧ s.calls[j]? = some (.stopping k) := by
    intro k sv hk hrun
    obtain hslot | ⟨j, hj⟩ := h.running k sv hk hrun
    · rw [hnone] at hslot
      cases hslot
    · refine ⟨j, fun hne => ?_, hj⟩
      rw [hne, hi] at hj
      cases hj
  unfold State.startService
  dsimp only
  split
  · refine sound_of_set hlt (fun j cfg hne hj => absurd hj (hothers j cfg hne))
      (fun cfg hcfg => by cases hcfg) (fun j k _ hj => ?_) (fun k hk => by cases hk)
      (fun k sv hk hrun => ?_) fun k hk => ?_
    · have hk := (h.stopping j k hj).2
      refine ⟨fun heq => ?_, ?_⟩
      · exact absurd (Option.some.inj heq) (Nat.ne_of_gt hk)
      · show k < (s.services ++ [_]).length
        rw [List.length_append]
        exact Nat.lt_add_right _ hk
    · change (s.services ++ [_])[k]? = some sv at hk
      by_cases hold : k < s.services.length
      · rw [List.getElem?_append_left hold] at hk
        exact .inr (.inl (hstopping k sv hk hrun))
      · have hk := (List.getElem?_eq_some_iff.mp hk).1
        rw [List.length_append, List.length_singleton] at hk
        exact .inl (congrArg some (by omega : s.services.length = k))
    · obtain rfl := Option.some.inj hk
      refine ⟨_, List.getElem?_concat_length, hon, ?_, rfl⟩
      exact (peekName_written s.hostName s.identity s.config.deviceName (wrote = true)).symm
  · exact sound_of_set hlt (fun j cfg hne hj => absurd hj (hothers j cfg hne))
      (fun cfg hcfg => by cases hcfg) (fun j k _ hj => h.stopping j k hj)
      (fun k hk => by cases hk) (fun k sv hk hrun => .inr (.inl (hstopping k sv hk hrun)))
      fun k hk => absurd (hnone.symm.trans hk) (by simp)

/-- A service that has been stopped does not run. -/
theorem State.Sound.stopped (h : s.Sound) (hi : s.calls[i]? = some (.stopping k)) :
    ((s.stopService k).returned i).Sound := by
  have hget : ∀ (j : Nat) (sv : Service),
      (s.services.modify k fun sv => { sv with running := false })[j]? = some sv →
        sv.running = true → j ≠ k ∧ s.services[j]? = some sv := by
    intro j sv hj hrun
    rw [List.getElem?_modify] at hj
    obtain ⟨old, hold, rfl⟩ := Option.map_eq_some_iff.mp hj
    split at hrun
    · cases hrun
    · rename_i hne
      rw [if_neg hne]
      exact ⟨Ne.symm hne, hold⟩
  refine sound_of_set (List.getElem?_eq_some_iff.mp hi).1 (fun j cfg hne hj => ?_)
    (fun cfg hcfg => by cases hcfg) (fun j k' _ hj => ?_) (fun k hk => by cases hk)
    (fun j sv hj hrun => ?_) fun j hj => ?_
  · obtain ⟨hlock, hrest⟩ := h.starting j cfg hj
    refine ⟨?_, hrest⟩
    show (if s.opLock = some i then none else s.opLock) = some j
    rw [if_neg fun heq => hne (Option.some.inj (hlock.symm.trans heq)), hlock]
  · obtain ⟨hne, hlt⟩ := h.stopping j k' hj
    exact ⟨hne, Nat.lt_of_lt_of_eq hlt (List.length_modify _ _ _).symm⟩
  · obtain ⟨hne, hj⟩ := hget j sv hj hrun
    rcases h.running j sv hj hrun with hslot | ⟨l, hl⟩
    · exact .inl hslot
    · refine .inr (.inl ⟨l, fun heq => ?_, hl⟩)
      rw [heq, hi] at hl
      exact hne (Phase.stopping.inj (Option.some.inj hl)).symm
  · obtain ⟨sv, hsv, hrest⟩ := h.service j hj
    have hne : k ≠ j := fun heq => (h.stopping i k hi).1 (heq ▸ hj)
    refine ⟨sv, ?_, hrest⟩
    show (s.services.modify k _)[j]? = some sv
    rw [List.getElem?_modify, hsv]
    exact congrArg some (if_neg hne)

/-- A new call, which does not start a service. -/
theorem State.Sound.called (h : s.Sound) (hstart : ∀ cfg, phase ≠ .starting cfg)
    (hstop : ∀ k, phase ≠ .stopping k) :
    ({ s with calls := s.calls ++ [phase] } : State).Sound := by
  have hget : ∀ (j : Nat) q, (s.calls ++ [phase])[j]? = some q →
      s.calls[j]? = some q ∨ phase = q := by
    intro j q hj
    by_cases hlt : j < s.calls.length
    · rw [List.getElem?_append_left hlt] at hj
      exact .inl hj
    · rw [List.getElem?_append_right (Nat.le_of_not_lt hlt)] at hj
      exact .inr (List.mem_singleton.mp (List.mem_of_getElem? hj)).symm
  refine ⟨fun j cfg hj => ?_, fun j k hj => ?_, fun k sv hk hrun => ?_, h.service⟩
  · exact h.starting j cfg ((hget j _ hj).resolve_right (hstart cfg))
  · exact h.stopping j k ((hget j _ hj).resolve_right (hstop k))
  · refine (h.running k sv hk hrun).imp id fun ⟨j, hj⟩ => ⟨j, ?_⟩
    rw [List.getElem?_append_left (List.getElem?_eq_some_iff.mp hj).1]
    exact hj

/-- `stop` takes the service out of the slot. -/
theorem State.Sound.stopCalled (h : s.Sound) (hslot : s.service = some k) :
    ({ s with service := none, calls := s.calls ++ [.stopping k] } : State).Sound := by
  obtain ⟨sv, hsv, -⟩ := h.service k hslot
  have hlt := (List.getElem?_eq_some_iff.mp hsv).1
  have hget : ∀ (j : Nat) q, (s.calls ++ [Phase.stopping k])[j]? = some q →
      s.calls[j]? = some q ∨ Phase.stopping k = q := by
    intro j q hj
    by_cases hlt : j < s.calls.length
    · rw [List.getElem?_append_left hlt] at hj
      exact .inl hj
    · rw [List.getElem?_append_right (Nat.le_of_not_lt hlt)] at hj
      exact .inr (List.mem_singleton.mp (List.mem_of_getElem? hj)).symm
  refine ⟨fun j cfg hj => ?_, fun j k' hj => ⟨nofun, ?_⟩,
    fun k' sv' hk' hrun => .inr ?_, fun k' hk' => by cases hk'⟩
  · rcases hget j _ hj with hj | heq
    · have hnone := (h.starting j cfg hj).2.2.2
      rw [hslot] at hnone
      cases hnone
    · cases heq
  · rcases hget j _ hj with hj | heq
    · exact (h.stopping j k' hj).2
    · obtain rfl := Phase.stopping.inj heq
      exact hlt
  · rcases h.running k' sv' hk' hrun with hk | ⟨j, hj⟩
    · obtain rfl := Option.some.inj (hslot.symm.trans hk)
      exact ⟨s.calls.length, List.getElem?_concat_length⟩
    · exact ⟨j, by
        rw [List.getElem?_append_left (List.getElem?_eq_some_iff.mp hj).1]
        exact hj⟩

/-- **A clear step keeps what holds.** -/
theorem State.Sound.step {s' : State} {e : Event} (h : s.Sound) (hclear : Clear s e)
    (hs : s.step e = some s') : s'.Sound := by
  cases e with
  | ensureStarted =>
    obtain rfl := Option.some.inj hs
    refine h.called (fun cfg => ?_) fun k => ?_
    · split
      · exact nofun
      · exact nofun
    · split
      · exact nofun
      · exact nofun
  | setConfig patch =>
    obtain rfl := Option.some.inj hs
    exact h.called (fun cfg heq => by cases heq) fun k heq => by cases heq
  | stop =>
    dsimp only [State.step] at hs
    split at hs
    · obtain rfl := Option.some.inj hs
      exact h.called (fun cfg heq => by cases heq) fun k heq => by cases heq
    · rename_i k hslot
      obtain rfl := Option.some.inj hs
      exact h.stopCalled hslot
  | acquire i o =>
    dsimp only [State.step] at hs
    split at hs
    · rename_i hlock
      split at hs
      · rename_i hi
        have hclear : Phase.ensureWaits.Clear s o := hclear _ hi
        obtain rfl := Option.some.inj hs
        split
        · exact h.returned hlock hi fun k heq => by cases heq
        · rename_i hnone
          have hnone : s.service = none := Option.not_isSome_iff_eq_none.mp hnone
          refine sound_of_set (List.getElem?_eq_some_iff.mp hi).1
            (fun j cfg _ hj => absurd hj (h.not_starting hlock j cfg)) (fun cfg hcfg => ?_)
            (fun j k _ hj => h.stopping j k hj) (fun k hk => by cases hk)
            (fun k sv hk hrun => (h.running k sv hk hrun).imp id fun ⟨j, hj⟩ =>
              .inl ⟨j, (fun hne => by rw [hne, hi] at hj; cases hj), hj⟩) h.service
          obtain rfl := Phase.starting.inj hcfg
          exact ⟨rfl, rfl, hclear hnone, hnone⟩
      · rename_i patch hi
        have hclear : (Phase.patchWaits patch).Clear s o := hclear _ hi
        obtain rfl := Option.some.inj hs
        exact h.setConfig hlock hi hclear
      · cases hs
    · cases hs
  | started i ok wrote =>
    dsimp only [State.step] at hs
    split at hs
    · rename_i cfg hi
      obtain rfl := Option.some.inj hs
      exact h.started hi ok wrote
    · cases hs
  | stopped i =>
    dsimp only [State.step] at hs
    split at hs
    · rename_i k hi
      obtain rfl := Option.some.inj hs
      exact h.stopped hi
    · cases hs

theorem sound_start (hostName defaultDir identity : List Char) (config : UserConfig)
    (autostart ok wrote : Bool) :
    (start hostName defaultDir identity config autostart ok wrote).Sound := by
  unfold start
  dsimp only
  split
  · rename_i hon
    have hon : config.enabled = true := by
      rw [Bool.and_eq_true] at hon
      exact hon.2
    unfold State.startService
    dsimp only
    split
    · refine ⟨fun i cfg hi => (by cases hi), fun i k hi => (by cases hi), fun k sv hk _ => .inl ?_,
        fun k hk => ?_⟩
      · have hk := (List.getElem?_eq_some_iff.mp hk).1
        exact congrArg some (Nat.lt_one_iff.mp hk).symm
      · obtain rfl := Option.some.inj hk
        refine ⟨_, rfl, hon, ?_, rfl⟩
        exact (peekName_written hostName identity config.deviceName (wrote = true)).symm
    · exact ⟨fun i cfg hi => (by cases hi), fun i k hi => (by cases hi),
        fun k sv hk => (by cases hk), fun k hk => (by cases hk)⟩
  · exact ⟨fun i cfg hi => (by cases hi), fun i k hi => (by cases hi),
      fun k sv hk => (by cases hk), fun k hk => (by cases hk)⟩

/-- **Switched off means off**, in a run in which nobody starts a service with the switch off and
the settings of a running service can be set. -/
theorem off_of_clear_run (hostName defaultDir identity : List Char) (config : UserConfig)
    (autostart ok wrote : Bool) (es : List Event) (s : State)
    (hclear : Along State.step Clear
      (start hostName defaultDir identity config autostart ok wrote) es)
    (hrun : run State.step (start hostName defaultDir identity config autostart ok wrote) es =
      some s) : s.Off :=
  (run_invariant (fun _ _ _ h hc hs => State.Sound.step h hc hs)
    (sound_start hostName defaultDir identity config autostart ok wrote) hclear hrun).off

/-! ## A call that waits for the lock -/

instance decidablePhaseClear (s : State) (o : Outcome) : (phase : Phase) →
    Decidable (phase.Clear s o)
  | .ensureWaits => inferInstanceAs (Decidable (s.service = none → s.config.enabled = true))
  | .patchWaits patch => inferInstanceAs (Decidable (∀ next ∈ s.config.patched patch o.made,
      o.saved = true → next.enabled = true → ∀ k ∈ s.service, ∀ sv ∈ s.services[k]?,
        (next.deviceName = [] → sv.name = s.effectiveName next) ∧
          (o.dirSet = true ∨ sv.recvDir = s.effectiveDir next)))
  | .starting _ => isTrue trivial
  | .stopping _ => isTrue trivial
  | .returned => isTrue trivial

instance decidableClear (s : State) : (e : Event) → Decidable (Clear s e)
  | .ensureStarted => isTrue trivial
  | .setConfig _ => isTrue trivial
  | .stop => isTrue trivial
  | .acquire i o => inferInstanceAs (Decidable (∀ phase ∈ s.calls[i]?, phase.Clear s o))
  | .started _ _ _ => isTrue trivial
  | .stopped _ => isTrue trivial

/-- All goes well. -/
def good : Outcome := ⟨true, true, true, true⟩

/-- The switch is on, and nothing else is configured. -/
def switchedOn : UserConfig := ⟨true, [], []⟩

/-- The patch that turns the switch off. -/
def turnOff : ConfigPatch := ⟨some false, none, none⟩

/-- A service is started, renamed and switched off. -/
def oneByOne : List Event :=
  [.ensureStarted, .acquire 0 good, .started 0 true true,
    .setConfig ⟨none, some ['a'], none⟩, .acquire 1 good, .setConfig turnOff, .acquire 2 good,
    .stopped 2]

theorem oneByOne_off :
    ∃ s, run State.step (start ['h'] ['d'] [] switchedOn false true true) oneByOne = some s ∧
      s.services = [⟨['a'], ['d'], false⟩] ∧ s.Off := by
  have hend : (run State.step (start ['h'] ['d'] [] switchedOn false true true) oneByOne).map
      (fun s => s.services) = some [⟨['a'], ['d'], false⟩] := by
    decide +kernel
  obtain ⟨s, hs, hservices⟩ := Option.map_eq_some_iff.mp hend
  exact ⟨s, hs, hservices, off_of_clear_run _ _ _ _ _ _ _ oneByOne s (by decide +kernel) hs⟩

/-- A start fails while two calls wait for the lock: one that turns the switch off, and one more
`ensure_started`, which has found it on. -/
def waiting : List Event :=
  [.ensureStarted, .acquire 0 good, .setConfig turnOff, .ensureStarted, .started 0 false true,
    .acquire 1 good, .acquire 2 good, .started 2 true true]

/-- The receive directory is reset while a service runs, and the default one cannot be set. -/
def resetting : List Event :=
  [.setConfig ⟨none, none, some []⟩, .acquire 0 ⟨true, true, true, false⟩]

/-- In the end a service runs with the switch off; or one runs with a directory that is not the
configured one. -/
theorem service_left_on :
    (∃ s, run State.step (start ['h'] ['d'] [] switchedOn false true true) waiting = some s ∧
      s.config.enabled = false ∧ s.services.map (fun sv => sv.running) = [true] ∧ ¬s.Off) ∧
    ∃ s, run State.step (start ['h'] ['d'] [] ⟨true, [], ['/', 'x']⟩ true true true) resetting =
        some s ∧
      s.services.map (fun sv => sv.recvDir) = [['/', 'x']] ∧ s.effectiveDir s.config = ['d'] ∧
        ¬s.Off := by
  have hon : (run State.step (start ['h'] ['d'] [] switchedOn false true true) waiting).map
      (fun s => ((s.config.enabled, s.services), s.calls)) =
        some ((false, [⟨['h'], ['d'], true⟩]), [.returned, .returned, .returned]) := by
    decide +kernel
  have hdir : (run State.step (start ['h'] ['d'] [] ⟨true, [], ['/', 'x']⟩ true true true)
      resetting).map (fun s => ((s.effectiveDir s.config, s.services), s.calls)) =
        some ((['d'], [⟨['h'], ['/', 'x'], true⟩]), [.returned]) := by
    decide +kernel
  constructor
  · obtain ⟨s, hs, hall⟩ := Option.map_eq_some_iff.mp hon
    obtain ⟨hfirst, hcalls⟩ := Prod.mk.inj hall
    obtain ⟨henabled, hservices⟩ := Prod.mk.inj hfirst
    refine ⟨s, hs, henabled, by rw [hservices]; rfl, fun h => ?_⟩
    have hreturned : ∀ phase ∈ s.calls, phase = .returned := by
      rw [hcalls]
      decide
    have hoff := (h hreturned 0 _ (by rw [hservices]; rfl) rfl).2.1
    rw [henabled] at hoff
    cases hoff
  · obtain ⟨s, hs, hall⟩ := Option.map_eq_some_iff.mp hdir
    obtain ⟨hfirst, hcalls⟩ := Prod.mk.inj hall
    obtain ⟨heffective, hservices⟩ := Prod.mk.inj hfirst
    refine ⟨s, hs, by rw [hservices]; rfl, heffective, fun h => ?_⟩
    have hreturned : ∀ phase ∈ s.calls, phase = .returned := by
      rw [hcalls]
      decide
    have hsame := (h hreturned 0 _ (by rw [hservices]; rfl) rfl).2.2.2
    rw [heffective] at hsame
    exact absurd hsame (by decide)

end XferRust.Lan.Controller
